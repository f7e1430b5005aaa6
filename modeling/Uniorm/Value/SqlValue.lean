import Uniorm.Value.Timestamp

/-! # Values and the types of members

`sql_value`, the member types it can hold directly, and the types that reach it through a converter
or as an optional. A double is the bits it consists of.
-/
namespace Uniorm.Value

inductive SqlValue where
  | null
  | bool (value : Bool)
  | int16 (value : Int16)
  | int32 (value : Int32)
  | int64 (value : Int64)
  | double (bits : BitVec 64)
  | string (bytes : List UInt8)
  | bytes (bytes : List UInt8)
  | timestamp (value : Int64)
  deriving DecidableEq

def SqlValue.length : SqlValue → ℕ
  | string value => value.length
  | bytes value => value.length
  | _ => 0

/-- The types of `plain_sql_member` that a `sql_value` holds. No member is an `int8_t`: it has no
alternative there, so its column does not compile. -/
inductive PlainType where
  | bool
  | int16
  | int32
  | int64
  | double
  | string
  | bytes
  | timestamp
  deriving DecidableEq, Repr

namespace PlainType

abbrev Carrier : PlainType → Type
  | bool => Bool
  | int16 => Int16
  | int32 => Int32
  | int64 => Int64
  | double => BitVec 64
  | string => List UInt8
  | bytes => List UInt8
  | timestamp => Int64

def initial : (t : PlainType) → t.Carrier
  | bool => false
  | int16 => (0 : Int16)
  | int32 => (0 : Int32)
  | int64 => (0 : Int64)
  | double => (0 : BitVec 64)
  | string => ([] : List UInt8)
  | bytes => ([] : List UInt8)
  | timestamp => (0 : Int64)

/-- `make_sql_value`, given a type it takes over as it is. -/
def sqlValue : (t : PlainType) → t.Carrier → SqlValue
  | bool, value => .bool value
  | int16, value => .int16 value
  | int32, value => .int32 value
  | int64, value => .int64 value
  | double, value => .double value
  | string, value => .string value
  | bytes, value => .bytes value
  | timestamp, value => .timestamp value

end PlainType

/-- `converter<D>`. `toDb` assigns into a slot of the representation; `fromDb` may throw. -/
structure Converter (D : Type) where
  dbType : PlainType
  toDb : D → dbType.Carrier → dbType.Carrier
  fromDb : dbType.Carrier → Option D

/-- `sql_representable`: the types a column binds, directly or through a converter. -/
inductive Representable : Type 1 where
  | plain (type : PlainType)
  | converted (D : Type) (converter : Converter D)

namespace Representable

abbrev Carrier : Representable → Type
  | plain type => type.Carrier
  | converted D _ => D

def dbType : Representable → PlainType
  | plain type => type
  | converted _ c => c.dbType

def encoded : (u : Representable) → u.Carrier → u.dbType.Carrier
  | plain _, value => value
  | converted _ c, value => c.toDb value c.dbType.initial

def decoded : (u : Representable) → u.dbType.Carrier → Option u.Carrier
  | plain _, slot => some slot
  | converted _ c, slot => c.fromDb slot

def makeSqlValue (u : Representable) (value : u.Carrier) : SqlValue :=
  u.dbType.sqlValue (u.encoded value)

end Representable

inductive MemberType : Type 1 where
  | required (type : Representable)
  | optional (type : Representable)

namespace MemberType

abbrev Carrier : MemberType → Type
  | required u => u.Carrier
  | optional u => Option u.Carrier

def representable : MemberType → Representable
  | required u => u
  | optional u => u

/-- The value of a member, `none` for an empty optional. -/
def value? : (t : MemberType) → t.Carrier → Option t.representable.Carrier
  | required _, v => some v
  | optional _, v => v

end MemberType

end Uniorm.Value
