import DelegatedAuthority.Bytes
/-!
Heads of data items: a major type in three bits, and an argument in the other five or in the
one, two, four or eight bytes behind them.

Heads are read leniently. Where a head of one major type is wanted, its bits are masked out
of the first byte, so that a head whose own major type has some of these bits, and no others,
is read as well.
-/
namespace DelegatedAuthority.Cbor

inductive Major where
  | unsigned
  | negative
  | bytes
  | text
  | array
  | map
  | tag
  | simple
  deriving DecidableEq, Repr

namespace Major

def code : Major → Nat
  | unsigned => 0
  | negative => 1
  | bytes => 2
  | text => 3
  | array => 4
  | map => 5
  | tag => 6
  | simple => 7

def ofCode : Nat → Major
  | 0 => unsigned
  | 1 => negative
  | 2 => bytes
  | 3 => text
  | 4 => array
  | 5 => map
  | 6 => tag
  | _ => simple

theorem code_lt (major : Major) : major.code < 8 := by
  cases major <;> decide

@[simp] theorem ofCode_code (major : Major) : ofCode major.code = major := by
  cases major <;> rfl

def ofByte (b : UInt8) : Major :=
  ofCode (b.toNat / 32)

/-- Whether a head of the second major type is read where one of the first is wanted: the
second has no bit that the first lacks. -/
def admits (wanted found : Major) : Bool :=
  wanted.code ||| found.code == wanted.code

@[simp] theorem admits_self (major : Major) : major.admits major = true := by
  cases major <;> rfl

end Major

/-- Where the argument of a head stands. -/
inductive Width where
  | inline
  | one
  | two
  | four
  | eight
  deriving DecidableEq, Repr

namespace Width

def size : Width → Nat
  | inline => 0
  | one => 1
  | two => 2
  | four => 4
  | eight => 8

/-- The least number that the width cannot hold. -/
def bound : Width → Nat
  | inline => 24
  | one => 0x100
  | two => 0x10000
  | four => 0x100000000
  | eight => 0x10000000000000000

/-- The low five bits that announce an argument `n`. -/
def lowBits (width : Width) (n : Nat) : Nat :=
  match width with
  | inline => n
  | one => 24
  | two => 25
  | four => 26
  | eight => 27

/-- The width that the low five bits announce. Four of their values announce none. -/
def ofLowBits? (low : Nat) : Option Width :=
  if low < 24 then some inline
  else if low = 24 then some one
  else if low = 25 then some two
  else if low = 26 then some four
  else if low = 27 then some eight
  else none

theorem lowBits_lt {width : Width} {n : Nat} (h : n < width.bound) : width.lowBits n < 28 := by
  cases width <;> simp only [lowBits, bound] at * <;> omega

theorem ofLowBits?_lowBits {width : Width} {n : Nat} (h : n < width.bound) :
    ofLowBits? (width.lowBits n) = some width := by
  cases width with
  | inline => exact if_pos h
  | _ => rfl

def shortest (n : Nat) : Width :=
  if n < inline.bound then inline
  else if n < one.bound then one
  else if n < two.bound then two
  else if n < four.bound then four
  else eight

theorem lt_bound_shortest {n : Nat} (h : n < eight.bound) : n < (shortest n).bound := by
  fun_cases shortest n <;> assumption

end Width

def writeHeadIn (width : Width) (major : Major) (n : Nat) : Bytes :=
  UInt8.ofNat (32 * major.code + width.lowBits n) :: Bytes.ofNat width.size n

def writeHead (major : Major) (n : Nat) : Bytes :=
  writeHeadIn (Width.shortest n) major n

theorem toNat_firstByte {width : Width} {n : Nat} (h : n < width.bound) (major : Major) :
    (UInt8.ofNat (32 * major.code + width.lowBits n)).toNat =
      32 * major.code + width.lowBits n := by
  have low_lt := Width.lowBits_lt h
  have code_lt := major.code_lt
  rw [UInt8.toNat_ofNat']
  omega

theorem ofByte_firstByte {width : Width} {n : Nat} (h : n < width.bound) (major : Major) :
    Major.ofByte (UInt8.ofNat (32 * major.code + width.lowBits n)) = major := by
  have low_lt := Width.lowBits_lt h
  rw [Major.ofByte, toNat_firstByte h,
    show (32 * major.code + width.lowBits n) / 32 = major.code by omega, Major.ofCode_code]

/-- Reads an argument that stands in the low five bits or in the bytes behind them. -/
def readArgument (width : Width) (low : Nat) (rest : Bytes) : Option (Nat × Bytes) :=
  match width with
  | .inline => some (low, rest)
  | width => Bytes.readNat width.size rest

theorem readArgument_append {width : Width} {n : Nat} (h : n < width.bound) (rest : Bytes) :
    readArgument width (width.lowBits n) (Bytes.ofNat width.size n ++ rest) = some (n, rest) := by
  cases width with
  | inline => rfl
  | _ =>
    simp only [Width.bound] at h
    simp only [readArgument, Width.size, Bytes.readNat_append]
    rw [Nat.mod_eq_of_lt (by omega)]

/-- Reads the argument of a head where one of a major type is wanted. -/
def readHead (wanted : Major) : Bytes → Option (Nat × Bytes)
  | [] => none
  | b :: rest =>
    if wanted.admits (.ofByte b) then do
      readArgument (← Width.ofLowBits? (b.toNat % 32)) (b.toNat % 32) rest
    else none

/-- An argument is read back from any width that holds it. -/
theorem readHead_writeHeadIn (width : Width) (major : Major) (n : Nat) (h : n < width.bound)
    (rest : Bytes) : readHead major (writeHeadIn width major n ++ rest) = some (n, rest) := by
  have low_lt := Width.lowBits_lt h
  rw [writeHeadIn, List.cons_append, readHead, ofByte_firstByte h, Major.admits_self,
    if_pos rfl, toNat_firstByte h,
    show (32 * major.code + width.lowBits n) % 32 = width.lowBits n by omega,
    Width.ofLowBits?_lowBits h]
  exact readArgument_append h rest

/-- The first byte of an item of indefinite length: all five low bits are set. -/
def streamByte (major : Major) : UInt8 :=
  UInt8.ofNat (32 * major.code + 31)

theorem streamByte_mod (major : Major) : (streamByte major).toNat % 32 = 31 := by
  cases major <;> rfl

def stopByte : UInt8 := 0xff

def nullByte : UInt8 := 0xf6

end DelegatedAuthority.Cbor
