import Mathlib.Algebra.Group.Nat.Defs
import SecdLisp.Image.Bytes

/-!
# The image format is exact

A decoder is exact if it reads a value from the encoding of the value and from nothing else. Every
part of an image has an exact decoder, so an input is read as an image if and only if it starts
with the written form of that image.
-/

namespace SecdLisp

namespace Image

open Decoder

variable {α β : Type}

/-- The decoder reads every value that fits, from its encoding and from nothing else. -/
def Exact (d : Decoder α) (encode : α → Bytes) (fits : α → Prop) : Prop :=
  ∀ input a rest, d input = .ok (a, rest) ↔ fits a ∧ input = encode a ++ rest

theorem decoder_bind_eq_ok {d : Decoder α} {f : α → Decoder β} {input : Bytes}
    {result : β × Bytes} :
    (d >>= f) input = .ok result ↔
      ∃ a middle, d input = .ok (a, middle) ∧ f a middle = .ok result := by
  change Except.bind (d input) (fun p => f p.1 p.2) = _ ↔ _
  cases d input with
  | error cause => simp [Except.bind]
  | ok p =>
    constructor
    · exact fun read => ⟨p.1, p.2, rfl, read⟩
    · rintro ⟨a, middle, first, read⟩
      cases first
      exact read

theorem decoder_pure_eq_ok {a b : α} {input rest : Bytes} :
    (pure a : Decoder α) input = .ok (b, rest) ↔ b = a ∧ rest = input := by
  change Except.ok (a, input) = _ ↔ _
  simp [eq_comm]

theorem Exact.bind_eq_ok {d : Decoder α} {encode : α → Bytes} {fits : α → Prop}
    (exact : Exact d encode fits) {f : α → Decoder β} {input : Bytes} {result : β × Bytes} :
    (d >>= f) input = .ok result ↔
      ∃ a middle, fits a ∧ input = encode a ++ middle ∧ f a middle = .ok result := by
  simp only [decoder_bind_eq_ok, exact _ _ _, and_assoc]

/-- An exact decoder succeeds on the inputs that start with an encoding. -/
theorem Exact.eq_ok_iff_prefix {d : Decoder α} {encode : α → Bytes} {fits : α → Prop}
    (exact : Exact d encode fits) {input : Bytes} {a : α} :
    (∃ rest, d input = .ok (a, rest)) ↔ fits a ∧ encode a <+: input := by
  constructor
  · rintro ⟨rest, read⟩
    obtain ⟨fits, eq⟩ := (exact input a rest).mp read
    exact ⟨fits, rest, eq.symm⟩
  · rintro ⟨fits, rest, eq⟩
    exact ⟨rest, (exact input a rest).mpr ⟨fits, eq.symm⟩⟩

theorem ofLittleEndian_lt (bytes : Bytes) : ofLittleEndian bytes < 256 ^ bytes.length := by
  induction bytes with
  | nil => exact Nat.one_pos
  | cons b bytes ih =>
    have hb : b.toNat < 256 := b.toNat_lt
    rw [ofLittleEndian, List.length_cons, Nat.pow_succ]
    omega

theorem ofLittleEndian_littleEndian {width n : Nat} (fits : n < 256 ^ width) :
    ofLittleEndian (littleEndian width n) = n := by
  induction width generalizing n with
  | zero =>
    rw [Nat.pow_zero, Nat.lt_one_iff] at fits
    exact fits.symm
  | succ width ih =>
    have high : n / 256 < 256 ^ width := by
      rw [Nat.pow_succ] at fits
      exact Nat.div_lt_of_lt_mul (by rwa [Nat.mul_comm])
    have low : (UInt8.ofNat (n % 256)).toNat = n % 256 :=
      UInt8.toNat_ofNat_of_lt' (Nat.mod_lt n (by decide))
    rw [littleEndian, ofLittleEndian, ih high, low]
    omega

theorem exact_take (n : Nat) (short : ImageError) :
    Exact (take n short) id (fun bytes => bytes.length = n) := by
  intro input bytes rest
  simp only [take, List.splitAt_eq]
  constructor
  · intro read
    by_cases full : (input.take n).length = n
    · rw [if_pos full] at read
      cases read
      exact ⟨full, (List.take_append_drop n input).symm⟩
    · rw [if_neg full] at read
      cases read
  · rintro ⟨rfl, rfl⟩
    simp

theorem exact_number (width : Nat) :
    Exact (number width) (littleEndian width) (fun n => n < 256 ^ width) := by
  intro input n rest
  rw [number, (exact_take width .truncated).bind_eq_ok]
  constructor
  · rintro ⟨bytes, middle, length, rfl, read⟩
    obtain ⟨rfl, rfl⟩ := decoder_pure_eq_ok.mp read
    refine ⟨length ▸ ofLittleEndian_lt bytes, ?_⟩
    rw [← length, littleEndian_ofLittleEndian]
    rfl
  · rintro ⟨fits, rfl⟩
    refine ⟨littleEndian width n, rest, length_littleEndian width n, rfl, ?_⟩
    rw [ofLittleEndian_littleEndian fits]
    rfl

theorem items_eq_ok_iff {item : Decoder α} {encode : α → Bytes} {fits : α → Prop}
    (exact : Exact item encode fits) {count : Nat} {read all : List α} {input rest : Bytes} :
    items item count read input = .ok (all, rest) ↔
      ∃ more : List α, more.length = count ∧ (∀ a ∈ more, fits a) ∧
        all = read.reverse ++ more ∧ input = more.flatMap encode ++ rest := by
  induction count generalizing read input with
  | zero =>
    rw [items, decoder_pure_eq_ok]
    constructor
    · rintro ⟨rfl, rfl⟩
      exact ⟨[], rfl, by simp, by simp, rfl⟩
    · rintro ⟨more, length, _, rfl, rfl⟩
      rw [List.length_eq_zero_iff.mp length]
      exact ⟨by simp, rfl⟩
  | succ count ih =>
    rw [items, exact.bind_eq_ok]
    constructor
    · rintro ⟨a, middle, first, rfl, later⟩
      obtain ⟨more, length, others, rfl, rfl⟩ := ih.mp later
      exact ⟨a :: more, by rw [List.length_cons, length], List.forall_mem_cons.mpr ⟨first, others⟩,
        by simp, by simp⟩
    · rintro ⟨more, length, all, rfl, rfl⟩
      obtain _ | ⟨a, more⟩ := more
      · cases length
      · rw [List.forall_mem_cons] at all
        refine ⟨a, more.flatMap encode ++ rest, all.1, by simp, ih.mpr ?_⟩
        exact ⟨more, Nat.succ.inj length, all.2, by simp, rfl⟩

/-- A list whose length is written in eight bytes. -/
def FitList (fits : α → Prop) (as : List α) : Prop := as.length < 256 ^ 8 ∧ ∀ a ∈ as, fits a

theorem exact_list {item : Decoder α} {encode : α → Bytes} {fits : α → Prop}
    (exact : Exact item encode fits) : Exact (list item) (listBytes encode) (FitList fits) := by
  intro input as rest
  rw [list, (exact_number 8).bind_eq_ok]
  constructor
  · rintro ⟨count, middle, few, rfl, read⟩
    obtain ⟨more, rfl, all, rfl, rfl⟩ := (items_eq_ok_iff exact).mp read
    exact ⟨⟨few, all⟩, by simp [listBytes]⟩
  · rintro ⟨⟨few, all⟩, rfl⟩
    refine ⟨as.length, as.flatMap encode ++ rest, few, by simp [listBytes], ?_⟩
    exact (items_eq_ok_iff exact).mpr ⟨as, rfl, all, by simp, rfl⟩

/-- A name whose bytes are counted in eight bytes. -/
def FitName (s : String) : Prop := (Utf8.encode s).length < 256 ^ 8

theorem exact_name : Exact name nameBytes FitName := by
  intro input s rest
  rw [name, (exact_number 8).bind_eq_ok]
  constructor
  · rintro ⟨count, middle, few, rfl, read⟩
    obtain ⟨bytes, middle, rfl, rfl, spelled⟩ :=
      (exact_take count .truncatedName).bind_eq_ok.mp read
    cases decoded : Utf8.decode bytes with
    | error fault =>
      rw [decoded] at spelled
      cases spelled
    | ok t =>
      rw [decoded] at spelled
      obtain ⟨rfl, rfl⟩ := decoder_pure_eq_ok.mp spelled
      obtain rfl := Utf8.decode_eq_ok_iff.mp decoded
      exact ⟨few, by simp [nameBytes]⟩
  · rintro ⟨few, rfl⟩
    refine ⟨(Utf8.encode s).length, Utf8.encode s ++ rest, few, by simp [nameBytes], ?_⟩
    refine (exact_take _ .truncatedName).bind_eq_ok.mpr ⟨Utf8.encode s, rest, rfl, rfl, ?_⟩
    rw [Utf8.decode_encode]
    rfl

theorem ofIndex?_eq_some_iff {n : Nat} {o : Opcode} : Opcode.ofIndex? n = some o ↔ n = o.index := by
  constructor
  · intro found
    have here : n < 14 := (List.getElem?_eq_some_iff.mp found).1
    have all : ∀ i < 14, ∀ o, Opcode.ofIndex? i = some o → i = o.index := by decide
    exact all n here o found
  · rintro rfl
    exact Opcode.ofIndex?_index o

theorem exact_opcode : Exact opcode (fun o => littleEndian 4 o.index) fun _ => True := by
  intro input o rest
  rw [opcode, (exact_number 4).bind_eq_ok]
  constructor
  · rintro ⟨tag, middle, _, rfl, read⟩
    cases found : Opcode.ofIndex? tag with
    | none =>
      rw [found] at read
      cases read
    | some o' =>
      rw [found] at read
      obtain ⟨rfl, rfl⟩ := decoder_pure_eq_ok.mp read
      exact ⟨trivial, by rw [ofIndex?_eq_some_iff.mp found]⟩
  · rintro ⟨_, rfl⟩
    have few : o.index < 256 ^ 4 := Nat.lt_of_lt_of_le o.index_lt (by decide)
    refine ⟨o.index, rest, few, rfl, ?_⟩
    rw [Opcode.ofIndex?_index]
    rfl

theorem Exact.map_eq_ok {d : Decoder α} {encode : α → Bytes} {fits : α → Prop}
    (exact : Exact d encode fits) {f : α → β} {input rest : Bytes} {b : β} :
    (do return f (← d) : Decoder β) input = .ok (b, rest) ↔
      ∃ a, fits a ∧ b = f a ∧ input = encode a ++ rest := by
  rw [exact.bind_eq_ok]
  constructor
  · rintro ⟨a, middle, fits, rfl, read⟩
    obtain ⟨rfl, rfl⟩ := decoder_pure_eq_ok.mp read
    exact ⟨a, fits, rfl, rfl⟩
  · rintro ⟨a, fits, rfl, rfl⟩
    exact ⟨a, rest, fits, rfl, rfl⟩

theorem exact_slot : Exact slot slotBytes fun _ => True := by
  intro input s rest
  rw [slot, (exact_number 4).bind_eq_ok]
  constructor
  · rintro ⟨tag, middle, _, rfl, read⟩
    refine ⟨trivial, ?_⟩
    rcases tag with _ | _ | _ | _ | _ | _ | tag
    · obtain ⟨rfl, rfl⟩ := decoder_pure_eq_ok.mp read
      rfl
    · obtain ⟨rfl, rfl⟩ := decoder_pure_eq_ok.mp read
      rfl
    · obtain ⟨n, few, rfl, rfl⟩ := (exact_number 8).map_eq_ok.mp read
      have word : (UInt64.ofNat n).toInt64.toUInt64.toNat = n := UInt64.toNat_ofNat_of_lt' few
      rw [slotBytes, word, List.append_assoc]
    · obtain ⟨n, few, rfl, rfl⟩ := (exact_number 4).map_eq_ok.mp read
      have word : (UInt32.ofNat n).toNat = n := UInt32.toNat_ofNat_of_lt' few
      rw [slotBytes, word, List.append_assoc]
    · obtain ⟨o, _, rfl, rfl⟩ := exact_opcode.map_eq_ok.mp read
      simp [slotBytes]
    · obtain ⟨n, few, rfl, rfl⟩ := (exact_number 4).map_eq_ok.mp read
      have word : (UInt32.ofNat n).toNat = n := UInt32.toNat_ofNat_of_lt' few
      rw [slotBytes, word, List.append_assoc]
    · cases read
  · rintro ⟨_, rfl⟩
    cases s with
    | nil => exact ⟨0, rest, by decide, rfl, rfl⟩
    | truth => exact ⟨1, rest, by decide, rfl, rfl⟩
    | int n =>
      refine ⟨2, _, by decide, List.append_assoc .., (exact_number 8).map_eq_ok.mpr ?_⟩
      refine ⟨n.toUInt64.toNat, n.toUInt64.toNat_lt, ?_, rfl⟩
      rw [UInt64.ofNat_toNat]
      rfl
    | ident i =>
      refine ⟨3, _, by decide, List.append_assoc .., (exact_number 4).map_eq_ok.mpr ?_⟩
      exact ⟨i.toNat, i.toNat_lt, by rw [UInt32.ofNat_toNat], rfl⟩
    | op o =>
      refine ⟨4, _, by decide, List.append_assoc .., exact_opcode.map_eq_ok.mpr ?_⟩
      exact ⟨o, trivial, rfl, rfl⟩
    | pair i =>
      refine ⟨5, _, by decide, List.append_assoc .., (exact_number 4).map_eq_ok.mpr ?_⟩
      exact ⟨i.toNat, i.toNat_lt, by rw [UInt32.ofNat_toNat], rfl⟩

theorem exact_cell : Exact cell cellBytes fun _ => True := by
  intro input c rest
  rw [cell, exact_slot.bind_eq_ok]
  constructor
  · rintro ⟨car, middle, _, rfl, read⟩
    obtain ⟨cdr, _, rfl, rfl⟩ := exact_slot.map_eq_ok.mp read
    exact ⟨trivial, by simp [cellBytes]⟩
  · rintro ⟨_, rfl⟩
    refine ⟨c.car, slotBytes c.cdr ++ rest, trivial, by simp [cellBytes], ?_⟩
    exact exact_slot.map_eq_ok.mpr ⟨c.cdr, trivial, rfl, rfl⟩

/-- All lists and names of the image are short enough for their lengths to be written. -/
structure Fits (image : Image) : Prop where
  names : FitList FitName image.names.toList
  cells : image.cells.size < 256 ^ 8
  functions : FitList FitName image.functions
  macros : FitList FitName image.macros

theorem exact_image : Exact Decoder.image toBytes Fits := by
  intro input image rest
  rw [Decoder.image, (exact_list exact_name).bind_eq_ok]
  constructor
  · rintro ⟨names, _, fitNames, rfl, read₁⟩
    obtain ⟨cells, _, fitCells, rfl, read₂⟩ := (exact_list exact_cell).bind_eq_ok.mp read₁
    obtain ⟨root, _, _, rfl, read₃⟩ := exact_slot.bind_eq_ok.mp read₂
    obtain ⟨functions, _, fitFunctions, rfl, read₄⟩ := (exact_list exact_name).bind_eq_ok.mp read₃
    obtain ⟨macros, fitMacros, rfl, rfl⟩ := (exact_list exact_name).map_eq_ok.mp read₄
    exact ⟨⟨fitNames, fitCells.1, fitFunctions, fitMacros⟩, by simp [toBytes]⟩
  · rintro ⟨⟨fitNames, fewCells, fitFunctions, fitMacros⟩, rfl⟩
    have fitCells : FitList (fun _ => True) image.cells.toList := ⟨fewCells, fun _ _ => trivial⟩
    simp only [toBytes, List.append_assoc]
    refine ⟨image.names.toList, _, fitNames, rfl, ?_⟩
    refine (exact_list exact_cell).bind_eq_ok.mpr ⟨image.cells.toList, _, fitCells, rfl, ?_⟩
    refine exact_slot.bind_eq_ok.mpr ⟨image.root, _, trivial, rfl, ?_⟩
    refine (exact_list exact_name).bind_eq_ok.mpr ⟨image.functions, _, fitFunctions, rfl, ?_⟩
    exact (exact_list exact_name).map_eq_ok.mpr ⟨image.macros, fitMacros, rfl, rfl⟩

theorem ofBytes_eq_ok_iff {input : Bytes} {image : Image} :
    ofBytes input = .ok image ↔ image.Fits ∧ image.toBytes <+: input := by
  rw [← exact_image.eq_ok_iff_prefix]
  change Except.map Prod.fst (Decoder.image input) = _ ↔ _
  cases Decoder.image input with
  | error cause => simp [Except.map]
  | ok p =>
    obtain ⟨read, rest⟩ := p
    simp [Except.map]

/-- An encoded list is longer than the list, and than each of its items. -/
theorem length_lt_listBytes {encode : α → Bytes} (pos : ∀ a, 0 < (encode a).length) (as : List α) :
    as.length < (listBytes encode as).length ∧
      ∀ a ∈ as, (encode a).length < (listBytes encode as).length := by
  have all : as.length ≤ (as.flatMap encode).length ∧
      ∀ a ∈ as, (encode a).length ≤ (as.flatMap encode).length := by
    induction as with
    | nil => simp
    | cons a as ih =>
      have first := pos a
      rw [List.flatMap_cons, List.length_append, List.length_cons, List.forall_mem_cons]
      refine ⟨by omega, by omega, fun b hb => ?_⟩
      have later := ih.2 b hb
      omega
  rw [listBytes, List.length_append, length_littleEndian]
  exact ⟨by omega, fun a ha => by have := all.2 a ha; omega⟩

theorem length_nameBytes (s : String) : (nameBytes s).length = 8 + (Utf8.encode s).length := by
  simp [nameBytes, length_littleEndian]

theorem fitList_of_length {names : List String}
    (few : (listBytes nameBytes names).length < 256 ^ 8) : FitList FitName names := by
  have pos (s : String) : 0 < (nameBytes s).length := by
    rw [length_nameBytes]
    omega
  obtain ⟨length, items⟩ := length_lt_listBytes pos names
  refine ⟨Nat.lt_trans length few, fun s hs => ?_⟩
  have item := items s hs
  rw [length_nameBytes] at item
  exact Nat.lt_of_le_of_lt (Nat.le_add_left ..) (Nat.lt_trans item few)

theorem length_cellBytes_pos (c : ImageCell) : 0 < (cellBytes c).length := by
  have pos (s : Slot) : 0 < (slotBytes s).length := by
    cases s <;> simp [slotBytes, length_littleEndian]
  rw [cellBytes, List.length_append]
  exact Nat.add_pos_left (pos c.car) _

/-- An image whose written form can be addressed has lengths that can be written. -/
theorem fits_of_length {image : Image} (few : image.toBytes.length < 256 ^ 8) : image.Fits := by
  simp only [toBytes, List.length_append] at few
  have cells := (length_lt_listBytes length_cellBytes_pos image.cells.toList).1
  rw [Array.length_toList] at cells
  refine ⟨fitList_of_length ?_, ?_, fitList_of_length ?_, fitList_of_length ?_⟩ <;> omega

/-- The image format is an exact code. An input is read as an image if and only if the written
form of the image is a front part of the input, and is refused if and only if it has no such front
part; so a written form whose end is missing is refused. That an image fits is no condition where
inputs can be addressed. -/
theorem ofBytes_exact (input : Bytes) :
    (∀ image, ofBytes input = .ok image ↔ image.Fits ∧ image.toBytes <+: input) ∧
    (input.length < 2 ^ 64 → ∀ image, ofBytes input = .ok image ↔ image.toBytes <+: input) ∧
    ((∃ cause, ofBytes input = .error cause) ↔
      ∀ image : Image, image.Fits → ¬image.toBytes <+: input) ∧
    ∀ image : Image, image.Fits → input <+: image.toBytes → input ≠ image.toBytes →
      ∃ cause, ofBytes input = .error cause := by
  have read (image : Image) : ofBytes input = .ok image ↔ image.Fits ∧ image.toBytes <+: input :=
    ofBytes_eq_ok_iff
  refine ⟨read, fun few image => ?_, ?_, fun image fits front short => ?_⟩
  · rw [read]
    refine and_iff_right_of_imp fun front => fits_of_length ?_
    exact Nat.lt_of_le_of_lt front.length_le few
  · cases result : ofBytes input with
    | error cause =>
      refine ⟨fun _ image fits front => ?_, fun _ => ⟨cause, rfl⟩⟩
      have ok := (read image).mpr ⟨fits, front⟩
      rw [result] at ok
      cases ok
    | ok image =>
      obtain ⟨fits, front⟩ := (read image).mp result
      exact ⟨nofun, fun none => (none image fits front).elim⟩
  · cases result : ofBytes input with
    | error cause => exact ⟨cause, rfl⟩
    | ok other =>
      -- both forms are front parts of the longer one, which is read in one way only
      obtain ⟨fits', front'⟩ := (read other).mp result
      have long : ofBytes image.toBytes = .ok image :=
        ofBytes_eq_ok_iff.mpr ⟨fits, List.prefix_rfl⟩
      have long' : ofBytes image.toBytes = .ok other :=
        ofBytes_eq_ok_iff.mpr ⟨fits', front'.trans front⟩
      obtain rfl : image = other := Except.ok.inj (long.symm.trans long')
      exact (short (front.eq_of_length_le front'.length_le)).elim

def single : Image := ⟨#["x"], #[⟨.ident 0, .nil⟩], .pair 0, ["x"], []⟩

theorem ofBytes_single : ofBytes (single.toBytes ++ [7, 7]) = .ok single := by
  have few : (single.toBytes ++ [7, 7]).length < 2 ^ 64 := by decide +kernel
  exact ((ofBytes_exact _).2.1 few single).mpr (List.prefix_append ..)

end Image

end SecdLisp
