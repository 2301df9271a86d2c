import SecdLisp.Proofs.Linking.Compile
import SecdLisp.Proofs.Turns
import SecdLisp.Proofs.Upkeep.Arising
import SecdLisp.Proofs.Upkeep.Termination

/-!
# Slots are never given up

A name that has a slot keeps it, whatever is done to a session after that and however it ends. So an
address in compiled code means the same name for ever.
-/

namespace SecdLisp

open Linking Machine

namespace Globals

variable {names names' : List Symbol} {name : Symbol} {slot : Nat}

theorem slotIn?_of_prefix (le : names <+: names') (found : slotIn? names name = some slot) :
    slotIn? names' name = some slot := by
  obtain ⟨more, rfl⟩ := le
  obtain ⟨i, here, rfl⟩ := Option.map_eq_some_iff.mp found
  obtain ⟨lt, eq, first⟩ := List.idxOf?_eq_some_iff.mp here
  have later : (names ++ more).idxOf? name = some i := by
    refine List.idxOf?_eq_some_iff.mpr ⟨by rw [List.length_append]; omega, ?_, fun j lt' => ?_⟩
    · rw [List.getElem_append_left lt, eq]
    · rw [List.getElem_append_left (Nat.lt_trans lt' lt)]
      exact first j lt'
  rw [slotIn?, later]
  rfl

theorem exists_slotIn? (nodup : names.Nodup) (positive : 0 < slot) (le : slot ≤ names.length) :
    ∃ name, slotIn? names name = some slot := by
  obtain ⟨i, rfl⟩ := Nat.exists_eq_succ_of_ne_zero (Nat.ne_of_gt positive)
  have here : names.idxOf? names[i] = some i :=
    List.idxOf?_eq_some_iff.mpr ⟨le, rfl, fun j lt same =>
      Nat.ne_of_lt lt (nodup.getElem_inj_iff.mp same)⟩
  exact ⟨names[i], by rw [slotIn?, here]; rfl⟩

end Globals

namespace Session

variable {s t u : Session} {expr : Value}

/-- Nothing dangles in the session, and each name has one slot. -/
structure Tidy (s : Session) : Prop where
  inRange : s.InRange
  nodup : ∀ table, (s.globals.table table).Nodup

/-- A session that came of another one has all its names in the same slots. -/
structure Heir (s t : Session) : Prop where
  tidy : t.Tidy
  names : ∀ table, s.globals.table table <+: t.globals.table table

theorem Tidy.heir (tidy : s.Tidy) : s.Heir s := ⟨tidy, fun _ => List.prefix_rfl⟩

theorem Heir.trans (first : s.Heir t) (second : t.Heir u) : s.Heir u :=
  ⟨second.tidy, fun table => (first.names table).trans (second.names table)⟩

theorem Heir.same (heir : s.Heir t) (same : t.Same u) : s.Heir u := by
  obtain ⟨h, symbols, g, log⟩ := t
  obtain ⟨h', symbols', g', log'⟩ := u
  obtain ⟨⟨⟩, ⟨⟩, ⟨⟩⟩ := same
  exact ⟨⟨⟨heir.tidy.inRange.cells, heir.tidy.inRange.env, heir.tidy.inRange.functions,
    heir.tidy.inRange.macros⟩, heir.tidy.nodup⟩, heir.names⟩

theorem Tidy.leaves {α : Type} {x : SessionM α} {p : Session → α → Prop} (tidy : s.Tidy)
    (keeps : upkeep.Keeps s p x) (same : (left x s).globals = s.globals) : s.Heir (left x s) := by
  refine ⟨⟨(left_of_keeps keeps tidy.inRange).1, fun table => ?_⟩, fun table => ?_⟩
  · exact same ▸ tidy.nodup table
  · exact same ▸ List.prefix_rfl

theorem globals_onHeap {α : Type} (x : HeapM α) (s : Session) :
    (left (onHeap x) s).globals = s.globals := by
  obtain ⟨h, symbols, g, log⟩ := s
  unfold left onHeap
  dsimp only
  cases x h <;> rfl

theorem globals_onReader {α : Type} (x : ReadM α) (source : Source) (s : Session) :
    (left (onReader x source) s).globals = s.globals := by
  obtain ⟨h, symbols, g, log⟩ := s
  unfold left onReader
  dsimp only
  cases x ⟨source, h, symbols⟩ <;> rfl

theorem globals_read (text : String) (s : Session) : (left (read text) s).globals = s.globals := by
  have same := globals_onReader Reading.form (.ofString text) s
  unfold read
  rw [left_bind]
  unfold left at same
  split <;> simp_all [left, pure, EStateM.pure]

theorem globals_run (steps : Nat) (code : Value) (s : Session) :
    (left (run steps code) s).globals = s.globals := by
  obtain ⟨h, symbols, g, log⟩ := s
  unfold left run
  dsimp only
  cases Machine.run symbols steps g.env code h <;> rfl

theorem Tidy.defines {slot : Nat} {table : Table} (tidy : s.Tidy) (inRange : t.InRange)
    (names : Names table s.globals slot t.globals) : s.Heir t :=
  ⟨⟨inRange, fun table => names.nodup table (tidy.nodup table)⟩, names.grow⟩

theorem Tidy.defineFunction (tidy : s.Tidy) (name : String) :
    s.Heir (left (defineFunction name) s) :=
  tidy.defines (left_of_keeps (keeps_defineFunction name) tidy.inRange).1
    (names_defineAt .functions s.globals (s.symbols.intern name).1)

theorem Tidy.defineMacro (tidy : s.Tidy) (name : String) : s.Heir (left (defineMacro name) s) :=
  tidy.defines (left_of_keeps (keeps_defineMacro name) tidy.inRange).1
    (names_defineAt .macros s.globals (s.symbols.intern name).1)

/-- What a session has before a form is compiled, with no cell sealed. -/
def blank (s : Session) : Linking.World := ⟨⟨s.heap, fun _ => False⟩, s.globals.table⟩

theorem open_of_knows {v : Value} (known : s.Knows v) : Data s.blank v := by
  rintro a rfl
  exact ⟨known, id⟩

theorem Tidy.blank_holds {ω : Type} (tidy : s.Tidy) (record : ω) :
    (linking True).holds s.blank ⟨s.heap, s.globals, record⟩ := by
  refine ⟨⟨rfl, fun _ => False.elim, fun a _ _ => ?_⟩, open_of_knows tidy.inRange.env,
    fun table => ⟨rfl, fun _ => tidy.nodup table⟩⟩
  exact ⟨open_of_knows (tidy.inRange.cells a).1, open_of_knows (tidy.inRange.cells a).2⟩

/-- The names that the code of a form refers to have their slots in the session that compiling the
form leaves. -/
theorem Tidy.compile (tidy : s.Tidy) (known : s.Knows expr) (steps : Nat) :
    Ends (compile steps expr) s
      (fun code t => s.Heir t ∧ ∀ table slot, Refers t.heap code table slot →
        ∃ name, Globals.slotIn? (t.globals.table table) name = some slot)
      fun _ t => s.Heir t := by
  have inRange := keeps_compile steps known s ⟨rfl, tidy.inRange⟩
  have ends := keeps_toplevel Log.recorder s.symbols steps (open_of_knows known) _
    (tidy.blank_holds s.log)
  obtain ⟨h, symbols, g, log⟩ := s
  unfold Session.compile Ends at *
  dsimp only at inRange ends ⊢
  generalize Compile.toplevel Log.recorder symbols steps expr ⟨h, g, log⟩ = result at inRange ends ⊢
  -- The names of the world that is reached are those of the session.
  have heir {w : Linking.World} {h' : Heap} {g' : Globals} {log' : Log}
      (le : (blank ⟨h, symbols, g, log⟩).Le w) (inRange : Session.InRange ⟨h', symbols, g', log'⟩)
      (tables : ∀ table, g'.table table = w.names table ∧ (True → (w.names table).Nodup)) :
      Heir ⟨h, symbols, g, log⟩ ⟨h', symbols, g', log'⟩ :=
    ⟨⟨inRange, fun table => (tables table).1 ▸ (tables table).2 trivial⟩,
      fun table => (tables table).1 ▸ le.names table⟩
  cases result with
  | ok code state =>
    obtain ⟨_, _, ⟨rfl, inRange⟩, _⟩ := inRange
    obtain ⟨w, le, ⟨⟨same, _⟩, _, tables⟩, linked⟩ := ends
    refine ⟨heir le inRange tables, fun table slot refers => ?_⟩
    obtain ⟨positive, le⟩ := linked.refers (same ▸ refers)
    rw [(tables table).1]
    exact Globals.exists_slotIn? ((tables table).2 trivial) positive le
  | error e state =>
    obtain ⟨_, _, ⟨rfl, inRange⟩, _⟩ := inRange
    obtain ⟨w, le, ⟨_, _, tables⟩, _⟩ := ends
    exact heir le inRange tables

theorem Tidy.run (tidy : s.Tidy) {code : Value} (known : s.Knows code) (steps : Nat) :
    s.Heir (left (run steps code) s) :=
  tidy.leaves (keeps_run steps known) (globals_run steps code s)

theorem Tidy.read (tidy : s.Tidy) (source : Source) : s.Heir (left (readNext source) s) :=
  tidy.leaves (keeps_readNext source) (globals_onReader _ source s)

theorem Tidy.turn (tidy : s.Tidy) (known : s.Knows expr) (steps : Nat) :
    s.Heir (turn steps expr s).after := by
  have compiled := tidy.compile known steps
  have inRange := keeps_compile steps known s ⟨rfl, tidy.inRange⟩
  unfold Session.turn
  cases first : Session.compile steps expr s with
  | error e t => exact compiled.of_eq_error first
  | ok code t =>
    have heir := (compiled.of_eq_ok first).1
    obtain ⟨_, _, ⟨rfl, _⟩, knownCode⟩ := inRange.of_eq_ok first
    have ran := heir.tidy.run knownCode steps
    dsimp only
    cases second : Session.run steps code t with
    | error e u => exact heir.trans (left_of_eq_error second ▸ ran)
    | ok v u => exact heir.trans (left_of_eq_ok second ▸ ran)

/-- Every form of a text leaves the names their slots, and so does the text. -/
theorem Tidy.turns {steps : Nat} {source : Source} {turns : List Turn} (tidy : s.Tidy)
    (course : Turns steps source s turns t) :
    (∀ turn ∈ turns, s.Heir turn.after) ∧ s.Heir t := by
  induction course with
  | done found => exact ⟨by simp, left_of_eq_ok found ▸ tidy.read _⟩
  | unread refused =>
    have heir := left_of_eq_error refused ▸ tidy.read _
    exact ⟨by simpa [Turn.after] using heir, heir⟩
  | @read source rest s t u expr turns found later ih =>
    have heir := left_of_eq_ok found ▸ tidy.read source
    obtain ⟨_, _, ⟨rfl, _⟩, known⟩ := (keeps_readNext source s ⟨rfl, tidy.inRange⟩).of_eq_ok found
    have first := heir.trans (heir.tidy.turn (known expr rfl) steps)
    obtain ⟨each, last⟩ := ih first.tidy
    refine ⟨List.forall_mem_cons.mpr ⟨first, fun turn mem => first.trans (each turn mem)⟩,
      first.trans last⟩

theorem Tidy.evalEach (tidy : s.Tidy) (steps : Nat) (text : String) :
    s.Heir (evalEach steps text s).2 := by
  obtain ⟨turns, t, course⟩ := exists_turns_of_text steps text s
  rw [evalEach_eq_turns course]
  exact (tidy.turns course).2

theorem Tidy.evalText (tidy : s.Tidy) (steps : Nat) (text : String) :
    s.Heir (left (evalText steps text) s) := by
  obtain ⟨turns, t, course⟩ := exists_turns_of_text steps text s
  obtain ⟨each, last⟩ := tidy.turns course
  refine Ends.left (p := s.Heir) ((evalFrom_matches_turns course (Nat.le_refl _) (.refl s) .nil).mono
    ?_ ?_)
  · rintro v u ⟨_, _, same⟩
    exact last.same same
  · rintro e u ⟨before, turn, rest, rfl, _, _, same⟩
    exact (each turn (by simp)).same same

theorem Tidy.eval (tidy : s.Tidy) (known : s.Knows expr) (steps : Nat) :
    s.Heir (left (eval steps expr) s) :=
  ((eval_matches_turn steps expr (.refl s)).mono
    (fun _ _ ends => (tidy.turn known steps).same ends.2)
    fun _ _ ends => (tidy.turn known steps).same ends.2).left (p := s.Heir)

theorem fst_answered {α : Type} (values : α → List Value) (x : SessionM α) (s : Session) :
    (answered values x s).1 = left x s := by
  unfold answered left
  cases x s <;> rfl

theorem Tidy.perform {images : Image → Prop} {op : Operation} (tidy : s.Tidy)
    (native : ∀ image, op ≠ .restore image) (permitted : op.Permitted images s) :
    s.Heir (perform op s).1 := by
  have inRange := (leaves_perform native permitted tidy.inRange).inRange
  -- Where no name is given a slot, the globals stay what they are.
  have same (eq : (Session.perform op s).1.globals = s.globals) :
      s.Heir (Session.perform op s).1 :=
    ⟨⟨inRange, fun table => eq ▸ tidy.nodup table⟩, fun table => eq ▸ List.prefix_rfl⟩
  cases op with
  | intern | capture => exact same rfl
  | cons | store =>
    refine same ?_
    unfold Session.perform
    rw [fst_answered]
    exact globals_onHeap _ s
  | read text =>
    refine same ?_
    unfold Session.perform
    rw [fst_answered]
    exact globals_read text s
  | run steps code =>
    refine same ?_
    unfold Session.perform
    rw [fst_answered]
    exact globals_run steps code s
  | defineFunction name => exact tidy.defineFunction name
  | defineMacro name => exact tidy.defineMacro name
  | compile steps expr =>
    unfold Session.perform
    rw [fst_answered]
    exact ((tidy.compile permitted steps).mono (fun _ _ => And.left) fun _ _ => id).left
      (p := s.Heir)
  | eval steps expr =>
    unfold Session.perform
    rw [fst_answered]
    exact tidy.eval permitted steps
  | evalText steps text =>
    unfold Session.perform
    rw [fst_answered]
    exact tidy.evalText steps text
  | evalEach steps text => exact tidy.evalEach steps text
  | restore image => exact (native image rfl).elim

theorem globals_restore_error {image : Image} {e : Error} (run : restore image s = .error e t) :
    t.globals = s.globals := by
  cases valid : image.validate with
  | error cause =>
    simp only [restore, valid] at run
    cases run
    rfl
  | ok _ =>
    obtain ⟨symbols, names, interned, _⟩ := internAll_spec image.names.toList s
    by_cases room : s.heap.size + image.cells.size ≤ s.heap.capacity
    · obtain ⟨_, _, installed, _⟩ := restore_spec valid room
      rw [installed] at run
      cases run
    · simp only [restore, valid, bind, EStateM.bind, interned, onHeap, Heap.read] at run
      cases blank : allocBlank image.cells.size s.heap with
      | ok _ h => exact (room ((ends_allocBlank _ _).of_eq_ok blank).1).elim
      | error e' h =>
        rw [blank] at run
        cases run
        rfl

/-- The names of an image's tables; each table of a session has different ones. -/
def names (image : Image) : Table → List String
  | .functions => image.functions
  | .macros => image.macros

theorem Tidy.image (tidy : s.Tidy) (table : Table) : (names s.image table).Nodup := by
  have known : ∀ n ∈ s.globals.table table, n < s.symbols.count := by
    cases table
    · exact tidy.inRange.functions
    · exact tidy.inRange.macros
  have spelled : names s.image table = (s.globals.table table).map s.symbols.name := by
    cases table <;> rfl
  rw [spelled]
  exact (tidy.nodup table).map_on fun i hi j hj same =>
    SymbolTable.name_injective (known i hi) (known j hj) same

theorem Tidy.restore {image : Image} (tidy : s.Tidy) (nodup : ∀ table, (names image table).Nodup) :
    (Session.perform (.restore image) s).1.Tidy := by
  refine ⟨(leaves_restore image tidy.inRange).1, ?_⟩
  unfold Session.perform
  rw [fst_answered]
  cases run : Session.restore image s with
  | error e t =>
    rw [left_of_eq_error run, globals_restore_error run]
    exact tidy.nodup
  | ok _ t =>
    obtain ⟨valid, room⟩ := room_of_restore run
    obtain ⟨t', _, run', _, _, _, _, functions, macros, _⟩ := restore_spec valid room
    rw [run] at run'
    cases run'
    rw [left_of_eq_ok run]
    intro table
    have spelled : (t.globals.table table).map t.symbols.name = names image table := by
      cases table
      · exact functions
      · exact macros
    exact (spelled ▸ nodup table : ((t.globals.table table).map t.symbols.name).Nodup).of_map _

theorem tidy_of_create {cells : Nat} {level : LogLevel} (new : create cells level = .ok s) :
    s.Tidy := by
  obtain ⟨_, globals, _⟩ := create_eq_ok new
  refine ⟨inRange_of_create new, fun table => ?_⟩
  rw [globals]
  cases table <;> exact List.nodup_nil

theorem tidy_of_arises (arises : Arises (fun _ => False) s) : s.Tidy :=
  arises.invariant (fun _ _ _ => tidy_of_create)
    (fun _ _ native permitted tidy => (tidy.perform native permitted).tidy)
    fun _ image source tidy => by
      obtain ⟨_, other, rfl⟩ := source.resolve_left id
      exact tidy.restore other.image

/-- The sessions that operations lead to, and what they pass on the way, as long as no image is
restored. -/
inductive Onward (s : Session) : Session → Prop where
  | refl : Onward s s
  | performed {t : Session} (op : Operation) (before : Onward s t)
    (native : ∀ image, op ≠ .restore image) (permitted : op.Permitted (fun _ => False) t) :
    Onward s (perform op t).1
  | read {t : Session} (source : Source) (before : Onward s t) :
    Onward s (left (readNext source) t)
  | logged {t : Session} (log : Log) (before : Onward s t) : Onward s { t with log }

theorem Tidy.onward (tidy : s.Tidy) (onward : s.Onward t) : s.Heir t := by
  induction onward with
  | refl => exact tidy.heir
  | performed op _ native permitted ih => exact ih.trans (ih.tidy.perform native permitted)
  | read source _ ih => exact ih.trans (ih.tidy.read source)
  | logged log _ ih => exact ih.same ⟨rfl, rfl, rfl⟩

theorem Heir.slot {table : Table} {name : Symbol} {slot : Nat} (heir : s.Heir t)
    (found : Globals.slotIn? (s.globals.table table) name = some slot) :
    Globals.slotIn? (t.globals.table table) name = some slot :=
  Globals.slotIn?_of_prefix (heir.names table) found

/-- No name table of a session has a name twice, and each later table extends the earlier one; so a
name that has a slot keeps it, and every address in code that was compiled means the same name in all
later sessions, whichever operations fail on the way. -/
theorem slots_stable (arises : Arises (fun _ => False) s) (onward : s.Onward t) :
    (∀ table, (t.globals.table table).Nodup ∧ s.globals.table table <+: t.globals.table table) ∧
    (∀ table name slot, Globals.slotIn? (s.globals.table table) name = some slot →
      Globals.slotIn? (t.globals.table table) name = some slot) ∧
    ∀ steps expr code u, t.Knows expr → compile steps expr t = .ok code u →
      ∀ table slot, Refers u.heap code table slot →
        ∃ name, ∀ v, u.Onward v → Globals.slotIn? (v.globals.table table) name = some slot := by
  have heir := (tidy_of_arises arises).onward onward
  refine ⟨fun table => ⟨heir.tidy.nodup table, heir.names table⟩, fun _ _ _ => heir.slot, ?_⟩
  intro steps expr code u known compiled table slot refers
  obtain ⟨later, linked⟩ := (heir.tidy.compile known steps).of_eq_ok compiled
  obtain ⟨name, found⟩ := linked table slot refers
  exact ⟨name, fun v onward => (later.tidy.onward onward).slot found⟩

/-- A session that is about to compile a function that calls itself. -/
def looping : Session := (perform (.read "(set f (fn (x) (f x)))") spacious).1

def looped : Session := left (compile 20 (.pair 10)) looping

/-- The call is in the body of the function, with one frame around it. -/
theorem slots_stable_looped : Refers looped.heap (.pair 26) .functions 1 ∧
    ∃ name, ∀ v, looped.Onward v →
      Globals.slotIn? (v.globals.table .functions) name = some 1 := by
  have made : create 64 .quiet = .ok spacious := rfl
  have arises : Arises (fun _ => False) looping := .performed (.read _) (.created made) trivial
  have known : looping.Knows (.pair 10) := by decide +kernel
  have compiled : compile 20 (.pair 10) looping = .ok (.pair 26) looped :=
    eq_ok_of_value? (by decide +kernel)
  have walk : Leads looped.heap (0, .pair 26) (1, .pair 19) := by
    refine .head (b := (1, .pair 24)) ?_ (.head (b := (1, .pair 23)) ?_
      (.head (b := (1, .pair 20)) ?_ (.single ?_))) <;> decide +kernel
  have refers : Refers looped.heap (.pair 26) .functions 1 :=
    ⟨1, .pair 19, walk, by decide +kernel, by decide +kernel⟩
  exact ⟨refers, (slots_stable arises .refl).2.2 20 (.pair 10) (.pair 26) looped known compiled
    .functions 1 refers⟩

end Session

end SecdLisp
