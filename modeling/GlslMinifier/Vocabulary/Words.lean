/-
  GlslMinifier.Vocabulary.Words — the words of the shading language.
-/

namespace GlslMinifier.Vocabulary

/-- Words of statements, declarations and qualifiers. -/
def statementWords : List String := [
  "attribute", "const", "uniform", "varying", "buffer", "shared", "coherent", "volatile",
  "restrict", "readonly", "writeonly", "layout", "centroid", "flat", "smooth",
  "noperspective", "patch", "sample", "invariant", "precise", "break", "continue", "do",
  "for", "while", "switch", "case", "default", "if", "else", "subroutine", "in", "out",
  "inout", "true", "false", "discard", "return", "struct", "lowp", "mediump", "highp",
  "precision", "main"]

/-- Scalar, vector and matrix types. -/
def valueTypes : List String := [
  "void", "bool", "int", "uint", "float", "double", "atomic_uint", "vec2", "vec3", "vec4",
  "ivec2", "ivec3", "ivec4", "uvec2", "uvec3", "uvec4", "bvec2", "bvec3", "bvec4", "dvec2",
  "dvec3", "dvec4", "mat2", "mat3", "mat4", "mat2x2", "mat2x3", "mat2x4", "mat3x2", "mat3x3",
  "mat3x4", "mat4x2", "mat4x3", "mat4x4", "dmat2", "dmat3", "dmat4", "dmat2x2", "dmat2x3",
  "dmat2x4", "dmat3x2", "dmat3x3", "dmat3x4", "dmat4x2", "dmat4x3", "dmat4x4"]

/-- Sampler types. -/
def samplerTypes : List String := [
  "sampler", "samplerShadow", "sampler1D", "sampler2D", "sampler3D", "samplerCube",
  "sampler1DShadow", "sampler2DShadow", "samplerCubeShadow", "sampler1DArray",
  "sampler2DArray", "sampler1DArrayShadow", "sampler2DArrayShadow", "samplerCubeArray",
  "samplerCubeArrayShadow", "sampler2DRect", "sampler2DRectShadow", "samplerBuffer",
  "sampler2DMS", "sampler2DMSArray", "samplerExternalOES", "isampler1D", "isampler2D",
  "isampler3D", "isamplerCube", "isampler1DArray", "isampler2DArray", "isamplerCubeArray",
  "isampler2DRect", "isamplerBuffer", "isampler2DMS", "isampler2DMSArray", "usampler1D",
  "usampler2D", "usampler3D", "usamplerCube", "usampler1DArray", "usampler2DArray",
  "usamplerCubeArray", "usampler2DRect", "usamplerBuffer", "usampler2DMS", "usampler2DMSArray"]

/-- Texture and subpass types. -/
def textureTypes : List String := [
  "texture1D", "texture2D", "texture3D", "textureCube", "texture1DArray", "texture2DArray",
  "textureCubeArray", "texture2DRect", "textureBuffer", "texture2DMS", "texture2DMSArray",
  "subpassInput", "subpassInputMS"]

/-- Image types. -/
def imageTypes : List String := [
  "image1D", "image2D", "image3D", "imageCube", "image1DArray", "image2DArray",
  "imageCubeArray", "image2DRect", "imageBuffer", "image2DMS", "image2DMSArray", "iimage1D",
  "iimage2D", "iimage3D", "iimageCube", "iimage1DArray", "iimage2DArray", "iimageCubeArray",
  "iimage2DRect", "iimageBuffer", "iimage2DMS", "iimage2DMSArray", "uimage1D", "uimage2D",
  "uimage3D", "uimageCube", "uimage1DArray", "uimage2DArray", "uimageCubeArray",
  "uimage2DRect", "uimageBuffer", "uimage2DMS", "uimage2DMSArray"]

/-- Words that the language keeps for later use. -/
def futureWords : List String := [
  "common", "partition", "active", "asm", "class", "union", "enum", "typedef", "template",
  "this", "resource", "goto", "inline", "noinline", "public", "static", "extern", "external",
  "interface", "long", "short", "half", "fixed", "unsigned", "superp", "input", "output",
  "hvec2", "hvec3", "hvec4", "fvec2", "fvec3", "fvec4", "sampler3DRect", "filter", "sizeof",
  "cast", "namespace", "using"]

/-- Functions that the language provides. -/
def builtinFunctions : List String := [
  "radians", "degrees", "sin", "cos", "tan", "asin", "acos", "atan", "sinh", "cosh", "tanh",
  "asinh", "acosh", "atanh", "pow", "exp", "log", "exp2", "log2", "sqrt", "inversesqrt",
  "abs", "sign", "floor", "trunc", "round", "roundEven", "ceil", "fract", "mod", "modf",
  "min", "max", "clamp", "mix", "step", "smoothstep", "isnan", "isinf", "floatBitsToInt",
  "floatBitsToUint", "intBitsToFloat", "uintBitsToFloat", "fma", "frexp", "ldexp",
  "packUnorm2x16", "packSnorm2x16", "packUnorm4x8", "packSnorm4x8", "unpackUnorm2x16",
  "unpackSnorm2x16", "unpackUnorm4x8", "unpackSnorm4x8", "packHalf2x16", "unpackHalf2x16",
  "packDouble2x32", "unpackDouble2x32", "length", "distance", "dot", "cross", "normalize",
  "faceforward", "reflect", "refract", "matrixCompMult", "outerProduct", "transpose",
  "determinant", "inverse", "lessThan", "lessThanEqual", "greaterThan", "greaterThanEqual",
  "equal", "notEqual", "any", "all", "not", "uaddCarry", "usubBorrow", "umulExtended",
  "imulExtended", "bitfieldExtract", "bitfieldInsert", "bitfieldReverse", "bitCount",
  "findLSB", "findMSB", "textureSize", "textureQueryLod", "textureQueryLevels",
  "textureSamples", "texture", "textureProj", "textureLod", "textureOffset", "texelFetch",
  "texelFetchOffset", "textureProjOffset", "textureLodOffset", "textureProjLod",
  "textureProjLodOffset", "textureGrad", "textureGradOffset", "textureProjGrad",
  "textureProjGradOffset", "textureGather", "textureGatherOffset", "textureGatherOffsets",
  "texture1DLod", "texture1DProj", "texture2DLod", "texture2DProj", "texture2DProjLod",
  "texture3DLod", "texture3DProj", "textureCubeLod", "shadow1D", "shadow2D", "shadow1DProj",
  "shadow2DProj", "shadow1DLod", "shadow2DLod", "atomicCounterIncrement",
  "atomicCounterDecrement", "atomicCounter", "atomicAdd", "atomicMin", "atomicMax",
  "atomicAnd", "atomicOr", "atomicXor", "atomicExchange", "atomicCompSwap", "imageSize",
  "imageSamples", "imageLoad", "imageStore", "imageAtomicAdd", "imageAtomicMin",
  "imageAtomicMax", "imageAtomicAnd", "imageAtomicOr", "imageAtomicXor",
  "imageAtomicExchange", "imageAtomicCompSwap", "dFdx", "dFdy", "dFdxFine", "dFdyFine",
  "dFdxCoarse", "dFdyCoarse", "fwidth", "fwidthFine", "fwidthCoarse", "interpolateAtCentroid",
  "interpolateAtSample", "interpolateAtOffset", "noise1", "noise2", "noise3", "noise4",
  "EmitStreamVertex", "EndStreamPrimitive", "EmitVertex", "EndPrimitive", "barrier",
  "memoryBarrier", "memoryBarrierAtomicCounter", "memoryBarrierBuffer", "memoryBarrierShared",
  "memoryBarrierImage", "groupMemoryBarrier", "subpassLoad"]

/-- Variables and constants that the language provides. -/
def builtinVariables : List String := [
  "gl_Position", "gl_PointSize", "gl_ClipDistance", "gl_CullDistance", "gl_VertexID",
  "gl_InstanceID", "gl_VertexIndex", "gl_InstanceIndex", "gl_DrawID", "gl_BaseVertex",
  "gl_BaseInstance", "gl_PrimitiveID", "gl_PrimitiveIDIn", "gl_InvocationID", "gl_Layer",
  "gl_ViewportIndex", "gl_FragCoord", "gl_FrontFacing", "gl_PointCoord", "gl_SampleID",
  "gl_SamplePosition", "gl_SampleMask", "gl_SampleMaskIn", "gl_HelperInvocation",
  "gl_FragColor", "gl_FragData", "gl_FragDepth", "gl_NumWorkGroups", "gl_WorkGroupSize",
  "gl_WorkGroupID", "gl_LocalInvocationID", "gl_GlobalInvocationID",
  "gl_LocalInvocationIndex", "gl_TessCoord", "gl_TessLevelOuter", "gl_TessLevelInner",
  "gl_PatchVerticesIn", "gl_in", "gl_out", "gl_PerVertex", "gl_DepthRange", "gl_MaxLights",
  "gl_MaxDrawBuffers", "gl_MaxTextureUnits"]

/-- Every word that the language reserves. -/
def reservedWords : List String :=
  statementWords ++ valueTypes ++ samplerTypes ++ textureTypes ++ imageTypes ++ futureWords
    ++ builtinFunctions ++ builtinVariables

end GlslMinifier.Vocabulary
