import SecdLisp.Proofs.Text.Layout
import SecdLisp.Proofs.Text.Passage

/-!
# The scanner byte by byte

Words can be cut out of the bytes of a text, and told apart by a state that each byte of a word
changes. The scanner below does so, and decodes a word only when it is complete. It finds what
reading characters finds and stops at the same places; so no word that it cuts out is broken text,
and it never stops inside a character.
-/

namespace SecdLisp

namespace Scanning

/-- What is known of a word from its bytes so far. -/
inductive Scan where
  | start
  | number
  | minus
  | name
  deriving DecidableEq, Repr

def isDigitByte (b : UInt8) : Bool := 48 ≤ b && b ≤ 57

/-- A digit after a minus sign makes a number. Anything else in a number makes it a name. -/
def Scan.after : Scan → UInt8 → Scan
  | start, b => if b = 45 then minus else if isDigitByte b then number else name
  | number, b | minus, b => if isDigitByte b then number else name
  | name, _ => name

inductive Fault where
  | notText
  | malformed (cause : ParseError)

def ofWord (bs : Bytes) : Except Fault Token :=
  match Utf8.decode bs with
  | .error _ => .error .notText
  | .ok text =>
    if bs.foldl Scan.after .start = .number then
      match (Token.numeral? text.toList).bind word? with
      | some n => .ok (.int n)
      | none => .error (.malformed (.integerOutOfRange text))
    else .ok (.ident text)

def mark? (b : UInt8) : Option Token :=
  if b < 128 then Token.punctuation? (Char.ofNat b.toNat) else none

/-- Scan the next token from a position of the input on, or `none` at the end. -/
def next? (input : Bytes) : EStateM Fault Nat (Option Token) := fun pos =>
  let unread := skip false (input.drop pos)
  let pos := input.length - unread.length
  match unread with
  | [] => .ok none pos
  | b :: _ =>
    match mark? b with
    | some t => .ok (some t) (pos + 1)
    | none =>
      let w := word unread
      match ofWord w with
      | .ok t => .ok (some t) (pos + w.length)
      | .error fault => .error fault (pos + w.length)

variable {text : String} {front w : List Char} {src : Source} {c : Char}

theorem length_bytesOf (cs : List Char) : (bytesOf cs).length = byteLength cs := by
  induction cs with
  | nil => rfl
  | cons c cs ih =>
    rw [bytesOf_cons, List.length_append, ih, byteLength_cons, String.length_utf8EncodeChar]

theorem isDigitByte_of_toNat {b : UInt8} (same : b.toNat = c.toNat) :
    isDigitByte b = c.isDigit := by
  have val : b.toNat = c.val.toNat := same
  simp [isDigitByte, Char.isDigit, UInt8.le_iff_toNat_le, UInt32.le_iff_toNat_le, val]

theorem isDigitByte_of_large {b : UInt8} (large : 128 ≤ b) : isDigitByte b = false := by
  rw [UInt8.le_iff_toNat_le] at large
  simp [isDigitByte, UInt8.le_iff_toNat_le] at large ⊢
  omega

theorem isDigit_of_large (large : 128 ≤ c.toNat) : c.isDigit = false := by
  have val : 128 ≤ c.val.toNat := large
  simp [Char.isDigit, UInt32.le_iff_toNat_le]
  omega

@[simp] theorem foldl_after_name (bs : Bytes) : bs.foldl Scan.after .name = .name := by
  induction bs with
  | nil => rfl
  | cons b bs ih => exact ih

theorem foldl_after_number (ds : List Char) : (bytesOf ds).foldl Scan.after .number =
    if ds.all Char.isDigit then .number else .name := by
  induction ds with
  | nil => rfl
  | cons d ds ih =>
    rw [bytesOf_cons, List.foldl_append]
    rcases utf8EncodeChar_cases d with ⟨b, small, same, bytes⟩ | ⟨large, b, bs, bytes, all⟩
    · rw [bytes, List.foldl_cons, List.foldl_nil, Scan.after, isDigitByte_of_toNat same]
      cases digit : d.isDigit <;> simp [ih, digit]
    · have first := isDigitByte_of_large (all b (List.mem_cons_self ..))
      simp [bytes, Scan.after, first, isDigit_of_large large]

theorem foldl_after_minus (ds : List Char) : (bytesOf ds).foldl Scan.after .minus = .number ↔
    Token.allDigits ds = true := by
  cases ds with
  | nil => decide
  | cons d ds =>
    have same : (bytesOf (d :: ds)).foldl Scan.after .minus =
        (bytesOf (d :: ds)).foldl Scan.after .number := by
      rw [bytesOf_cons]
      rcases utf8EncodeChar_cases d with ⟨b, small, same, bytes⟩ | ⟨large, b, bs, bytes, all⟩ <;>
        rw [bytes] <;> rfl
    rw [same, foldl_after_number]
    simp [Token.allDigits]

theorem foldl_after_start (w : List Char) : (bytesOf w).foldl Scan.after .start = .number ↔
    (Token.numeral? w).isSome := by
  cases w with
  | nil => decide
  | cons c cs =>
    by_cases minus : c = '-'
    · subst minus
      have first : (bytesOf ('-' :: cs)).foldl Scan.after .start =
          (bytesOf cs).foldl Scan.after .minus := rfl
      rw [first, foldl_after_minus, Token.numeral?]
      split <;> simp_all
    · have other : ∀ ds, c :: cs ≠ '-' :: ds := fun ds eq => minus (List.cons.inj eq).1
      have first : (bytesOf (c :: cs)).foldl Scan.after .start =
          (bytesOf (c :: cs)).foldl Scan.after .number := by
        rw [bytesOf_cons]
        rcases utf8EncodeChar_cases c with ⟨b, small, same, bytes⟩ | ⟨large, b, bs, bytes, all⟩
        · have plain : b ≠ 45 := fun eq => minus ((eq_iff_of_toNat (e := '-') same rfl).mp eq)
          simp [bytes, Scan.after, plain]
        · have plain : b ≠ 45 := by
            rintro rfl
            exact absurd (all 45 (List.mem_cons_self ..)) (by decide)
          simp [bytes, Scan.after, plain]
      rw [first, foldl_after_number, Token.numeral?.eq_2 _ other]
      have some : Token.allDigits (c :: cs) = (c :: cs).all Char.isDigit := by simp [Token.allDigits]
      rw [some]
      split <;> simp_all

theorem ofWord_bytesOf (w : List Char) :
    ofWord (bytesOf w) = (Token.ofWord w).mapError Fault.malformed := by
  have text : Utf8.decode (bytesOf w) = .ok (String.ofList w) := by
    rw [← encode_ofList, Utf8.decode_encode]
  have state := foldl_after_start w
  rw [ofWord, text, Token.ofWord]
  cases numeral : Token.numeral? w with
  | none => simp_all [Except.mapError]
  | some n =>
    cases fits : word? n <;> simp_all [Except.mapError]

theorem mark?_of_small {b : UInt8} (small : b < 128) (same : b.toNat = c.toNat) :
    mark? b = Token.punctuation? c := by
  rw [mark?, if_pos small, same, Char.ofNat_toNat]

theorem mark?_of_large {b : UInt8} (large : 128 ≤ b) : mark? b = none := by
  rw [mark?, if_neg (UInt8.not_lt.mpr large)]

theorem encode_of_passes (passes : (Source.ofString text).Passes front src) :
    Utf8.encode text = bytesOf front ++ bytesOf src.unread ∧
      src.offset = (bytesOf front).length := by
  obtain ⟨characters, place⟩ := passes
  constructor
  · have whole : text.toList = front ++ src.unread := characters
    rw [← String.ofList_toList (s := text), encode_ofList, whole, bytesOf, List.flatMap_append]
    rfl
  · rw [place, length_bytesOf]
    exact Nat.zero_add _

/-- How scanning the bytes of a text ends where reading its characters ends so. -/
def seen {α : Type} : EStateM.Result ParseError Source α → EStateM.Result Fault Nat α
  | .ok a src => .ok a src.offset
  | .error cause src => .error (.malformed cause) src.offset

/-- The scanner finds what is read from a place of a text, and stops where the reading stops. -/
theorem next?_of_passes (passes : (Source.ofString text).Passes front src) :
    next? (Utf8.encode text) src.offset = seen (Token.next? src) := by
  obtain ⟨skipped, further⟩ := src.skipBlanks_passes
  obtain ⟨bytes, place⟩ := encode_of_passes passes
  obtain ⟨bytes', place'⟩ := encode_of_passes (passes.trans further)
  have unread : skip false ((Utf8.encode text).drop src.offset) = bytesOf src.skipBlanks.unread := by
    rw [bytes, place, List.drop_left, skip_bytesOf false src.offset]
    rfl
  have pos : (Utf8.encode text).length - (bytesOf src.skipBlanks.unread).length =
      src.skipBlanks.offset := by
    rw [bytes', place', List.length_append, Nat.add_sub_cancel]
  obtain ⟨o, left⟩ : ∃ o, src.skipBlanks = ⟨o, src.skipBlanks.unread⟩ := ⟨_, rfl⟩
  rw [next?, unread, pos]
  cases here : src.skipBlanks.unread with
  | nil =>
    rw [here] at left
    rw [Token.next?_eq_none left, left]
    rfl
  | cons c cs =>
    rw [here] at left
    obtain ⟨b, tail, first, mark⟩ : ∃ b tail, bytesOf (c :: cs) = b :: tail ∧
        mark? b = Token.punctuation? c := by
      rw [bytesOf_cons]
      rcases utf8EncodeChar_cases c with ⟨b, small, same, bytes⟩ | ⟨large, b, bs, bytes, all⟩
      · exact ⟨b, bytesOf cs, by rw [bytes]; rfl, mark?_of_small small same⟩
      · have plain := (Token.isDelimiter_eq_false.mp (isDelimiter_of_large large)).2.1
        exact ⟨b, bs ++ bytesOf cs, by rw [bytes]; rfl,
          (mark?_of_large (all b (List.mem_cons_self ..))).trans plain.symm⟩
    have found := ofWord_bytesOf ((c :: cs).takeWhile (!Token.isDelimiter ·))
    rw [← word_bytesOf, first] at found
    have length := length_bytesOf ((c :: cs).takeWhile (!Token.isDelimiter ·))
    rw [← word_bytesOf, first] at length
    rw [first, left]
    dsimp only
    rw [mark, found, length]
    cases one : Token.punctuation? c with
    | some t =>
      rw [Token.next?_punctuation left one]
      unfold Token.punctuation? at one
      split at one <;> first | rfl | cases one
    | none =>
      simp only [Token.next?, left, one, List.span_eq_takeWhile_dropWhile]
      cases Token.ofWord ((c :: cs).takeWhile (!Token.isDelimiter ·)) <;> rfl

end Scanning

namespace Token

/-- Reading tokens takes exactly the texts that are laid out from spelled tokens, and fails in
those with a numeral that is too large. The scanner of bytes does the same at each place, so it
fails for no other reason, and each place is a character boundary. -/
theorem reading_exact (text : String) :
    (∀ ts, Lexes text.toList ts ↔
      ∃ ps, Layout false text.toList ps ∧ List.Forall₂ Spells ps ts) ∧
    (∃ ps, Layout false text.toList ps) ∧
    (∀ ps, Layout false text.toList ps →
      ((∃ ts mid e last, Reads (.ofString text) ts mid ∧ next? mid = .error e last) ↔
        ∃ w ∈ ps, TooLarge w)) ∧
    ∀ ts src, Reads (.ofString text) ts src →
      (⟨src.offset⟩ : String.Pos.Raw).IsValid text ∧
      Scanning.next? (Utf8.encode text) src.offset = Scanning.seen (next? src) := by
  refine ⟨fun ts => lexes_iff_layout, exists_layout _ nofun, fun ps layout => layout.fails_iff, ?_⟩
  intro ts src reads
  obtain ⟨front, passes⟩ := reads.passes
  exact ⟨Source.isValid_of_passes passes, Scanning.next?_of_passes passes⟩

end Token

end SecdLisp
