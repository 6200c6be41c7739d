/-!
# Builtin types

The types that a file may name without declaring or importing them. Each has one canonical spelling, which is
the one the canonical form writes; the case of letters counts.
-/

namespace QiIdl

inductive Builtin where
  | nothing
  | bool
  | char
  | int
  | uint
  | int8
  | uint8
  | int16
  | uint16
  | int32
  | uint32
  | int64
  | uint64
  | float
  | float32
  | float64
  | string
  | value
  | object
  | raw
  | nanoseconds
  | microseconds
  | milliseconds
  | seconds
  | minutes
  | hours
  | qiTimePoint
  | steadyTimePoint
  | systemTimePoint
deriving DecidableEq, Repr

/-- A group of builtin types that are handled alike. -/
inductive BuiltinCategory where
  | void
  | bool
  | char
  | integer
  | float
  | string
  | value
  | object
  | buffer
  | duration
  | timePoint
deriving DecidableEq, Repr

namespace Builtin

/-- Every builtin type, in the order of the language reference. -/
def all : List Builtin :=
  [.nothing, .bool, .char, .int, .uint, .int8, .uint8, .int16, .uint16, .int32, .uint32, .int64,
   .uint64, .float, .float32, .float64, .string, .value, .object, .raw, .nanoseconds, .microseconds,
   .milliseconds, .seconds, .minutes, .hours, .qiTimePoint, .steadyTimePoint, .systemTimePoint]

/-- The canonical spelling. -/
def spelling : Builtin → String
  | nothing => "nothing"
  | bool => "bool"
  | char => "char"
  | int => "int"
  | uint => "uint"
  | int8 => "int8"
  | uint8 => "uint8"
  | int16 => "int16"
  | uint16 => "uint16"
  | int32 => "int32"
  | uint32 => "uint32"
  | int64 => "int64"
  | uint64 => "uint64"
  | float => "float"
  | float32 => "float32"
  | float64 => "float64"
  | string => "str"
  | value => "any"
  | object => "obj"
  | raw => "raw"
  | nanoseconds => "nsec"
  | microseconds => "usec"
  | milliseconds => "msec"
  | seconds => "sec"
  | minutes => "min"
  | hours => "hour"
  | qiTimePoint => "qitimepoint"
  | steadyTimePoint => "steadytimepoint"
  | systemTimePoint => "systemtimepoint"

def aliases : Builtin → List String
  | nothing => ["void"]
  | _ => []

def category : Builtin → BuiltinCategory
  | nothing => .void
  | bool => .bool
  | char => .char
  | int | uint | int8 | uint8 | int16 | uint16 | int32 | uint32 | int64 | uint64 => .integer
  | float | float32 | float64 => .float
  | string => .string
  | value => .value
  | object => .object
  | raw => .buffer
  | nanoseconds | microseconds | milliseconds | seconds | minutes | hours => .duration
  | qiTimePoint | steadyTimePoint | systemTimePoint => .timePoint

/-- The name of a type in listings of the vocabulary. -/
def name : Builtin → String
  | nothing => "Nothing"
  | bool => "Bool"
  | char => "Char"
  | int => "Int"
  | uint => "UInt"
  | int8 => "Int8"
  | uint8 => "UInt8"
  | int16 => "Int16"
  | uint16 => "UInt16"
  | int32 => "Int32"
  | uint32 => "UInt32"
  | int64 => "Int64"
  | uint64 => "UInt64"
  | float => "Float"
  | float32 => "Float32"
  | float64 => "Float64"
  | string => "String"
  | value => "Value"
  | object => "Object"
  | raw => "Raw"
  | nanoseconds => "NanoSeconds"
  | microseconds => "MicroSeconds"
  | milliseconds => "MilliSeconds"
  | seconds => "Seconds"
  | minutes => "Minutes"
  | hours => "Hours"
  | qiTimePoint => "QiTimePoint"
  | steadyTimePoint => "SteadyTimePoint"
  | systemTimePoint => "SystemTimePoint"

/-- The type of a spelling. Canonical spellings come first. -/
def ofSpelling? (s : String) : Option Builtin :=
  (all.find? (·.spelling == s)).or (all.find? (·.aliases.contains s))

end Builtin

def BuiltinCategory.name : BuiltinCategory → String
  | void => "Void"
  | bool => "Bool"
  | char => "Char"
  | integer => "Integer"
  | float => "Float"
  | string => "String"
  | value => "Value"
  | object => "Object"
  | buffer => "Buffer"
  | duration => "Duration"
  | timePoint => "TimePoint"

end QiIdl
