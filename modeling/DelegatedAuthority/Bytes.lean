/-!
Byte strings as lists, with the readings shared by the formats built on them:
exact splits, big-endian numbers, digits in any base, UTF-8 text and hexadecimal.
-/
namespace DelegatedAuthority

abbrev Bytes := List UInt8

/-- The number written by `digits` in `base`, most significant digit first. -/
def ofDigits (base : Nat) (digits : List Nat) : Nat :=
  digits.foldl (fun n d => n * base + d) 0

/-- The last `width` digits of a number in `base`, most significant digit first. -/
def toDigits (base : Nat) : Nat → Nat → List Nat
  | 0, _ => []
  -- the power by name, for what `^` stands for depends on what is imported
  | width + 1, n => n / base.pow width % base :: toDigits base width n

@[simp] theorem length_toDigits (base width n : Nat) : (toDigits base width n).length = width := by
  induction width with
  | zero => rfl
  | succ width ih => simp [toDigits, ih]

theorem foldl_digits (base : Nat) (digits : List Nat) (n : Nat) :
    digits.foldl (fun n d => n * base + d) n =
      n * base.pow digits.length + ofDigits base digits := by
  induction digits generalizing n with
  | nil => simp [ofDigits]
  | cons d digits ih =>
    rw [ofDigits, List.foldl_cons, List.foldl_cons, ih, ih (0 * base + d), List.length_cons,
      Nat.pow, Nat.mul_eq, Nat.add_mul, Nat.zero_mul, Nat.zero_add, Nat.mul_assoc,
      Nat.mul_comm base, Nat.add_assoc]

theorem ofDigits_cons (base d : Nat) (digits : List Nat) :
    ofDigits base (d :: digits) = d * base.pow digits.length + ofDigits base digits := by
  have := foldl_digits base digits d
  simpa [ofDigits] using this

theorem ofDigits_toDigits (base width n : Nat) :
    ofDigits base (toDigits base width n) = n % base.pow width := by
  induction width with
  | zero => simp [toDigits, ofDigits, Nat.mod_one]
  | succ width ih =>
    rw [toDigits, ofDigits_cons, ih, length_toDigits, Nat.pow, Nat.mul_eq, Nat.mod_mul,
      Nat.add_comm, Nat.mul_comm]

namespace Bytes

/-- Splits off exactly `n` bytes, or nothing when fewer are left. -/
def take? (n : Nat) (bytes : Bytes) : Option (Bytes × Bytes) :=
  if n ≤ bytes.length then some (bytes.take n, bytes.drop n) else none

theorem take?_append (front rest : Bytes) :
    take? front.length (front ++ rest) = some (front, rest) := by
  simp [take?]

/-- The low `width` bytes of a number, most significant first. -/
def ofNat (width n : Nat) : Bytes :=
  (toDigits 256 width n).map UInt8.ofNat

/-- The number a byte string denotes, most significant byte first. -/
def toNat (bytes : Bytes) : Nat :=
  ofDigits 256 (bytes.map UInt8.toNat)

@[simp] theorem length_ofNat (width n : Nat) : (ofNat width n).length = width := by
  simp [ofNat]

theorem toNat_ofNat (width n : Nat) : toNat (ofNat width n) = n % Nat.pow 256 width := by
  have small : (toDigits 256 width n).map (UInt8.toNat ∘ UInt8.ofNat) = toDigits 256 width n := by
    induction width with
    | zero => rfl
    | succ width ih => simp [toDigits, ih]
  rw [toNat, ofNat, List.map_map, small, ofDigits_toDigits]

def readNat (width : Nat) (bytes : Bytes) : Option (Nat × Bytes) := do
  let (content, rest) ← take? width bytes
  return (toNat content, rest)

theorem readNat_append (width n : Nat) (rest : Bytes) :
    readNat width (ofNat width n ++ rest) = some (n % Nat.pow 256 width, rest) := by
  have h := take?_append (ofNat width n) rest
  rw [length_ofNat] at h
  simp [readNat, h, toNat_ofNat]

def ofText (text : String) : Bytes :=
  text.toUTF8.data.toList

def toText? (bytes : Bytes) : Option String :=
  String.fromUTF8? ⟨bytes.toArray⟩

@[simp] theorem length_ofText (text : String) : (ofText text).length = text.utf8ByteSize := rfl

@[simp] theorem toText?_ofText (text : String) : toText? (ofText text) = some text := by
  have valid : (⟨(ofText text).toArray⟩ : ByteArray).IsValidUTF8 := text.isValidUTF8
  rw [toText?, String.fromUTF8?, dif_pos valid]
  rfl

theorem ofText_of_toText? {bytes : Bytes} {text : String} (h : toText? bytes = some text) :
    ofText text = bytes := by
  rw [toText?, String.fromUTF8?] at h
  split at h
  · cases h
    rfl
  · cases h

theorem ofText_append (text more : String) : ofText (text ++ more) = ofText text ++ ofText more := by
  simp [ofText, String.toByteArray_append]

/-- What begins with the bytes of a text begins with the text. -/
theorem exists_of_ofText_eq_append {text front : String} {rest : Bytes}
    (h : ofText text = ofText front ++ rest) :
    ∃ more, text = front ++ more ∧ ofText more = rest := by
  have joined : front.toByteArray ++ ⟨rest.toArray⟩ = text.toByteArray := by
    apply ByteArray.ext
    apply Array.toList_inj.mp
    simpa [ofText] using h.symm
  have encoded : front.toList.utf8Encode ++ ⟨rest.toArray⟩ = text.toList.utf8Encode := by
    simpa using joined
  obtain ⟨more, eq⟩ := List.isPrefix_of_utf8Encode_append_eq_utf8Encode _ encoded
  have split : text = front ++ String.ofList more := by
    apply String.toList_injective
    simpa using eq.symm
  refine ⟨String.ofList more, split, ?_⟩
  rw [split, ofText_append] at h
  exact List.append_cancel_left h

def hexAlphabet : List Char :=
  ['0', '1', '2', '3', '4', '5', '6', '7', '8', '9', 'a', 'b', 'c', 'd', 'e', 'f']

def hexDigit (n : Nat) : Char :=
  hexAlphabet.getD n '0'

def toHex (bytes : Bytes) : String :=
  String.ofList (bytes.flatMap fun b => [hexDigit (b.toNat / 16), hexDigit (b.toNat % 16)])

/-- Reads pairs of lower-case digits; an odd one is refused. -/
def ofHexDigits? : List Char → Option Bytes
  | [] => some []
  | [_] => none
  | high :: low :: rest => do
    let h ← hexAlphabet.idxOf? high
    let l ← hexAlphabet.idxOf? low
    return UInt8.ofNat (16 * h + l) :: (← ofHexDigits? rest)

def ofHex? (text : String) : Option Bytes :=
  ofHexDigits? text.toList

end Bytes

end DelegatedAuthority
