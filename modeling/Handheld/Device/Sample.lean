import Handheld.Machine.Basic

/-!
# Device samples

The sample formats devices speak, and the way from and to 16 bits for those that are supported.
-/

namespace Handheld

inductive SampleFormat where
  | i8 | i16 | i32 | i64 | u8 | u16 | u32 | u64 | f32 | f64
deriving DecidableEq

namespace SampleFormat

def name : SampleFormat → String
  | .i8 => "I8"
  | .i16 => "I16"
  | .i32 => "I32"
  | .i64 => "I64"
  | .u8 => "U8"
  | .u16 => "U16"
  | .u32 => "U32"
  | .u64 => "U64"
  | .f32 => "F32"
  | .f64 => "F64"

def all : List SampleFormat := [i8, i16, i32, i64, u8, u16, u32, u64, f32, f64]

def isSupported : SampleFormat → Bool
  | .f32 => true
  | .i16 => true
  | .u16 => true
  | .i32 => true
  | _ => false

end SampleFormat

/-- A sample as a device stores it: an integer, or the bits of a binary32 number. -/
inductive DeviceSample where
  | integer (n : Int)
  | float (bits : UInt32)
deriving DecidableEq

namespace DeviceSample

def equilibrium : SampleFormat → DeviceSample
  | .u16 => .integer 32768
  | .f32 => .float 0
  | _ => .integer 0

/-- A whole number as a sample of a format: integers are cut to the width of the format. -/
def ofInt (f : SampleFormat) (n : Int) : DeviceSample :=
  match f with
  | .u16 => .integer (n % 65536)
  | .i32 => .integer (Int32.ofInt n).toInt
  | .f32 => .float (Float32.ofInt n).toBits
  | _ => .integer (Int16.ofInt n).toInt

/-- A number as a sample of a format; where the format has whole numbers only, cut toward zero. -/
def ofFloat (f : SampleFormat) (x : Float) : DeviceSample :=
  if f = .f32 then .float x.toFloat32.toBits else ofInt f x.toInt64.toInt

def word : DeviceSample → UInt32
  | .integer n => (Int32.ofInt n).toUInt32
  | .float bits => bits

def ofInt16 (f : SampleFormat) (s : Int16) : DeviceSample :=
  match f with
  | .u16 => .integer (s.toInt + 32768)
  | .i32 => .integer (s.toInt * 65536)
  | .f32 => .float ((Float32.ofInt s.toInt / 32768).toBits)
  | _ => .integer s.toInt

def toInt16 (f : SampleFormat) : DeviceSample → Int16
  | .integer n =>
    match f with
    | .u16 => Int16.ofInt (n - 32768)
    | .i32 => Int16.ofInt (n / 65536)
    | _ => Int16.ofInt n
  | .float bits => (Float32.ofBits bits * 32768).toInt16

end DeviceSample

end Handheld
