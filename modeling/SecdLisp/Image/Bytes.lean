import SecdLisp.Image.Basic

/-!
# Images as bytes

Numbers are little endian with a fixed width: eight bytes for lengths and integers, four for
tags and positions. A list is its length and its items, a name its length and its UTF-8 bytes.
Bytes after the end of an image are ignored.
-/

namespace SecdLisp

namespace Image

/-- A number in that many bytes, the lowest first. -/
def littleEndian : (width : Nat) → Nat → Bytes
  | 0, _ => []
  | width + 1, n => UInt8.ofNat (n % 256) :: littleEndian width (n / 256)

/-- The number that bytes spell, the lowest first. -/
def ofLittleEndian : Bytes → Nat
  | [] => 0
  | b :: bytes => b.toNat + 256 * ofLittleEndian bytes

def listBytes {α : Type} (item : α → Bytes) (items : List α) : Bytes :=
  littleEndian 8 items.length ++ items.flatMap item

def nameBytes (s : String) : Bytes :=
  let bytes := Utf8.encode s
  littleEndian 8 bytes.length ++ bytes

def slotBytes : Slot → Bytes
  | .nil => littleEndian 4 0
  | .truth => littleEndian 4 1
  | .int n => littleEndian 4 2 ++ littleEndian 8 n.toUInt64.toNat
  | .ident i => littleEndian 4 3 ++ littleEndian 4 i.toNat
  | .op o => littleEndian 4 4 ++ littleEndian 4 o.index
  | .pair i => littleEndian 4 5 ++ littleEndian 4 i.toNat

def cellBytes (c : ImageCell) : Bytes := slotBytes c.car ++ slotBytes c.cdr

def toBytes (image : Image) : Bytes :=
  listBytes nameBytes image.names.toList ++ listBytes cellBytes image.cells.toList ++
    slotBytes image.root ++ listBytes nameBytes image.functions ++
    listBytes nameBytes image.macros

abbrev Decoder := StateT Bytes (Except ImageError)

namespace Decoder

def take (n : Nat) (short : ImageError) : Decoder Bytes := fun input =>
  let (bytes, rest) := input.splitAt n
  if bytes.length = n then .ok (bytes, rest) else .error short

def number (width : Nat) : Decoder Nat := do
  return ofLittleEndian (← take width .truncated)

def items {α : Type} (item : Decoder α) : (count : Nat) → List α → Decoder (List α)
  | 0, read => return read.reverse
  | count + 1, read => do items item count ((← item) :: read)

def list {α : Type} (item : Decoder α) : Decoder (List α) := do
  items item (← number 8) []

def name : Decoder String := do
  match Utf8.decode (← take (← number 8) .truncatedName) with
  | .ok s => return s
  | .error fault => throw (.badName fault)

def opcode : Decoder Opcode := do
  let tag ← number 4
  match Opcode.ofIndex? tag with
  | some o => return o
  | none => throw (.badTag tag 14)

def slot : Decoder Slot := do
  match ← number 4 with
  | 0 => return .nil
  | 1 => return .truth
  | 2 => return .int (UInt64.ofNat (← number 8)).toInt64
  | 3 => return .ident (UInt32.ofNat (← number 4))
  | 4 => return .op (← opcode)
  | 5 => return .pair (UInt32.ofNat (← number 4))
  | tag => throw (.badTag tag 6)

def cell : Decoder ImageCell := do
  let car ← slot
  return ⟨car, ← slot⟩

def image : Decoder Image := do
  let names ← list name
  let cells ← list cell
  let root ← slot
  let functions ← list name
  let macros ← list name
  return ⟨names.toArray, cells.toArray, root, functions, macros⟩

end Decoder

/-- The image that the input starts with. -/
def ofBytes (input : Bytes) : Except ImageError Image := Decoder.image.run' input

theorem length_littleEndian (width n : Nat) : (littleEndian width n).length = width := by
  induction width generalizing n with
  | zero => rfl
  | succ width ih => simp [littleEndian, ih]

theorem littleEndian_ofLittleEndian (bytes : Bytes) :
    littleEndian bytes.length (ofLittleEndian bytes) = bytes := by
  induction bytes with
  | nil => rfl
  | cons b bytes ih =>
    have hb : b.toNat < 256 := b.toNat_lt
    have low : (b.toNat + 256 * ofLittleEndian bytes) % 256 = b.toNat := by omega
    have high : (b.toNat + 256 * ofLittleEndian bytes) / 256 = ofLittleEndian bytes := by omega
    simp [littleEndian, ofLittleEndian, low, high, ih]

end Image

end SecdLisp
