import StackScript.Proofs.Code.Shape

/-! What compiling a program does, in the order of the source: words are read, instructions are written, and constants are
asked for. What a function ends up with is told by its history: the instructions, each on the line of the word read last,
and the constants, in the order in which they are first asked for. -/
namespace StackScript

/-- An entry of a pool of constants. -/
inductive Entry
  | literal (l : Literal)
  | function (r : FunctionRef)
  | global (x : String)
  deriving DecidableEq, Repr

namespace Entry

/-- The global name that an entry holds. -/
def global? : Entry → Option String
  | global x => some x
  | _ => none

@[simp] theorem global?_literal (l : Literal) : (literal l).global? = none := rfl

@[simp] theorem global?_function (r : FunctionRef) : (function r).global? = none := rfl

@[simp] theorem global?_global (x : String) : (global x).global? = some x := rfl

theorem global?_eq_some {e : Entry} {x : String} : e.global? = some x ↔ e = global x := by cases e <;> simp

end Entry

/-- What happens while a function is compiled. -/
inductive Event
  | read (w : Word)
  /-- An instruction is written whose operand is no constant. -/
  | emit (i : Instr)
  /-- A literal becomes a constant of its own, which is put on the stack. -/
  | literal (l : Literal)
  /-- A global name becomes a constant, unless it is one already. -/
  | ask (x : String)
  /-- An instruction is written whose operand is the constant of a global name. -/
  | access (op : Opcode) (x : String)
  /-- A function is compiled. It becomes a constant of its own, which is put on the stack. -/
  | function (r : FunctionRef) (events : List Event)

/-- What happens while a function is compiled, from behind its name on. -/
structure History where
  /-- How many words have been read before. -/
  start : Nat
  events : List Event

namespace Event

mutual

/-- The words that are read. -/
def words : Event → List Word
  | read w => [w]
  | function _ events => allWords events
  | _ => []

def allWords : List Event → List Word
  | [] => []
  | e :: es => e.words ++ allWords es

end

mutual

/-- The histories of the functions that are compiled, in the order in which they end. -/
def histories (start : Nat) : Event → List History
  | function _ events => allHistories start events ++ [⟨start, events⟩]
  | _ => []

def allHistories (start : Nat) : List Event → List History
  | [] => []
  | e :: es => e.histories start ++ allHistories (start + e.words.length) es

end

/-- How many bytes of code are written in the function itself. -/
def size : Event → Nat
  | emit i => i.size
  | literal _ | function _ _ => 2
  | access op _ => 1 + op.width
  | _ => 0

def allSize : List Event → Nat
  | [] => 0
  | e :: es => e.size + allSize es

/-- The constants that are asked for. -/
def needs : Event → Needs
  | literal _ | function _ _ => .one
  | ask x => { globals := {x} }
  | _ => 0

def allNeeds : List Event → Needs
  | [] => 0
  | e :: es => e.needs + allNeeds es

section Simp
variable (w : Word) (i : Instr) (l : Literal) (op : Opcode) (x : String) (r : FunctionRef) (events : List Event)

@[simp] theorem words_read : (read w).words = [w] := rfl
@[simp] theorem words_emit : (emit i).words = [] := rfl
@[simp] theorem words_literal : (literal l).words = [] := rfl
@[simp] theorem words_ask : (ask x).words = [] := rfl
@[simp] theorem words_access : (access op x).words = [] := rfl
@[simp] theorem words_function : (function r events).words = allWords events := rfl

@[simp] theorem size_read : (read w).size = 0 := rfl
@[simp] theorem size_emit : (emit i).size = i.size := rfl
@[simp] theorem size_literal : (literal l).size = 2 := rfl
@[simp] theorem size_ask : (ask x).size = 0 := rfl
@[simp] theorem size_access : (access op x).size = 1 + op.width := rfl
@[simp] theorem size_function : (function r events).size = 2 := rfl

@[simp] theorem needs_read : (read w).needs = 0 := rfl
@[simp] theorem needs_emit : (emit i).needs = 0 := rfl
@[simp] theorem needs_literal : (literal l).needs = .one := rfl
@[simp] theorem needs_ask : (ask x).needs = { globals := {x} } := rfl
@[simp] theorem needs_access : (access op x).needs = 0 := rfl
@[simp] theorem needs_function : (function r events).needs = .one := rfl

@[simp] theorem histories_read (start : Nat) : (read w).histories start = [] := rfl
@[simp] theorem histories_emit (start : Nat) : (emit i).histories start = [] := rfl
@[simp] theorem histories_literal (start : Nat) : (literal l).histories start = [] := rfl
@[simp] theorem histories_ask (start : Nat) : (ask x).histories start = [] := rfl
@[simp] theorem histories_access (start : Nat) : (access op x).histories start = [] := rfl
@[simp] theorem histories_function (start : Nat) :
    (function r events).histories start = allHistories start events ++ [⟨start, events⟩] := rfl

@[simp] theorem allWords_nil : allWords [] = [] := rfl
@[simp] theorem allSize_nil : allSize [] = 0 := rfl
@[simp] theorem allNeeds_nil : allNeeds [] = 0 := rfl
@[simp] theorem allHistories_nil (start : Nat) : allHistories start [] = [] := rfl
@[simp] theorem allWords_cons (e : Event) : allWords (e :: events) = e.words ++ allWords events := rfl
@[simp] theorem allSize_cons (e : Event) : allSize (e :: events) = e.size + allSize events := rfl
@[simp] theorem allNeeds_cons (e : Event) : allNeeds (e :: events) = e.needs + allNeeds events := rfl
@[simp] theorem allHistories_cons (start : Nat) (e : Event) :
    allHistories start (e :: events) = e.histories start ++ allHistories (start + e.words.length) events := rfl

end Simp

section Append
variable (es fs : List Event)

@[simp] theorem allWords_append : allWords (es ++ fs) = allWords es ++ allWords fs := by
  induction es with
  | nil => rfl
  | cons e es ih => rw [List.cons_append, allWords, allWords, ih, List.append_assoc]

@[simp] theorem allHistories_append (start : Nat) : allHistories start (es ++ fs) =
    allHistories start es ++ allHistories (start + (allWords es).length) fs := by
  induction es generalizing start with
  | nil => rfl
  | cons e es ih =>
    rw [List.cons_append, allHistories, allHistories, ih, List.append_assoc, allWords, List.length_append,
      Nat.add_assoc]

@[simp] theorem allSize_append : allSize (es ++ fs) = allSize es + allSize fs := by
  induction es with
  | nil => exact (Nat.zero_add _).symm
  | cons e es ih => rw [List.cons_append, allSize, allSize, ih, Nat.add_assoc]

@[simp] theorem allNeeds_append : allNeeds (es ++ fs) = allNeeds es + allNeeds fs := by
  induction es with
  | nil => exact (Needs.zero_add _).symm
  | cons e es ih => rw [List.cons_append, allNeeds, allNeeds, ih, Needs.add_assoc]

end Append
end Event

/-! ### What events lead to -/

/-- How far the compilation of a function has come. -/
structure Progress where
  /-- How many words have been read. -/
  words : Nat
  /-- The constants of the function. -/
  entries : List Entry

namespace Progress

def next (p : Progress) : Event → Progress
  | .read _ => { p with words := p.words + 1 }
  | .literal l => { p with entries := p.entries ++ [.literal l] }
  | .ask x => if .global x ∈ p.entries then p else { p with entries := p.entries ++ [.global x] }
  | .function r events =>
    { p with words := p.words + (Event.allWords events).length, entries := p.entries ++ [.function r] }
  | .emit _ | .access _ _ => p

/-- The instruction that is written. -/
def instr? (p : Progress) : Event → Option Instr
  | .emit i => some i
  | .literal _ | .function _ _ => some ⟨.constant, p.entries.length⟩
  | .access op x => some ⟨op, p.entries.idxOf (.global x)⟩
  | .read _ | .ask _ => none

def after (p : Progress) (es : List Event) : Progress := es.foldl next p

@[simp] theorem after_nil (p : Progress) : p.after [] = p := rfl

@[simp] theorem after_cons (p : Progress) (e : Event) (es : List Event) : p.after (e :: es) = (p.next e).after es := rfl

@[simp] theorem after_append (p : Progress) (es fs : List Event) : p.after (es ++ fs) = (p.after es).after fs :=
  List.foldl_append

/-- The instructions that are written, each with the line of the word read last. -/
def placed (line : Nat → Nat) (p : Progress) : List Event → List (Instr × Nat)
  | [] => []
  | e :: es => ((p.instr? e).map (·, line (p.next e).words)).toList ++ placed line (p.next e) es

@[simp] theorem placed_append (line : Nat → Nat) (p : Progress) (es fs : List Event) :
    p.placed line (es ++ fs) = p.placed line es ++ (p.after es).placed line fs := by
  induction es generalizing p with
  | nil => rfl
  | cons e es ih => rw [List.cons_append, placed, placed, ih, after_cons, List.append_assoc]

/-- The instructions that are written. -/
def code (p : Progress) : List Event → List Instr
  | [] => []
  | e :: es => (p.instr? e).toList ++ (p.next e).code es

@[simp] theorem code_append (p : Progress) (es fs : List Event) :
    p.code (es ++ fs) = p.code es ++ (p.after es).code fs := by
  induction es generalizing p with
  | nil => rfl
  | cons e es ih => rw [List.cons_append, code, code, ih, after_cons, List.append_assoc]

theorem map_placed (line : Nat → Nat) (p : Progress) (es : List Event) :
    (p.placed line es).map Prod.fst = p.code es := by
  induction es generalizing p with
  | nil => rfl
  | cons e es ih =>
    rw [placed, code, List.map_append, ih]
    cases p.instr? e <;> rfl

theorem codeLength_code (p : Progress) (es : List Event) : codeLength (p.code es) = Event.allSize es := by
  induction es generalizing p with
  | nil => rfl
  | cons e es ih =>
    rw [code, codeLength_append, ih, Event.allSize]
    cases e <;> rfl

theorem words_after (p : Progress) (es : List Event) : (p.after es).words = p.words + (Event.allWords es).length := by
  induction es generalizing p with
  | nil => rfl
  | cons e es ih =>
    have hnext : (p.next e).words = p.words + e.words.length := by
      cases e with
      | ask x =>
        rw [next]
        split <;> rfl
      | _ => rfl
    rw [after_cons, ih, hnext, Event.allWords, List.length_append, Nat.add_assoc]

/-- No constant is taken away or moved. -/
theorem entries_after (p : Progress) (es : List Event) : p.entries <+: (p.after es).entries := by
  induction es generalizing p with
  | nil => exact List.prefix_rfl
  | cons e es ih =>
    refine List.IsPrefix.trans ?_ (ih (p.next e))
    cases e with
    | ask x =>
      rw [next]
      split
      · exact List.prefix_rfl
      · exact List.prefix_append _ _
    | read | emit | access => exact List.prefix_rfl
    | literal | function => exact List.prefix_append _ _

/-- A global name is known under its constant. -/
def Knows (p : Progress) (x : String) (i : Nat) : Prop := .global x ∈ p.entries ∧ p.entries.idxOf (.global x) = i

/-- The constant of a name stays the same. -/
theorem Knows.after {p : Progress} {x : String} {i : Nat} (h : p.Knows x i) (es : List Event) :
    (p.after es).Knows x i := by
  obtain ⟨more, hmore⟩ := p.entries_after es
  rw [Knows, ← hmore, List.idxOf_append_of_mem h.1]
  exact ⟨List.mem_append_left _ h.1, h.2⟩

/-- Every global name that is accessed has been asked for before. -/
def Asked (p : Progress) : List Event → Prop
  | [] => True
  | e :: es => (∀ {op x}, e = .access op x → .global x ∈ p.entries) ∧ (p.next e).Asked es

theorem asked_append {p : Progress} {es fs : List Event} : p.Asked (es ++ fs) ↔ p.Asked es ∧ (p.after es).Asked fs := by
  induction es generalizing p with
  | nil => exact (iff_of_eq (true_and _)).symm
  | cons e es ih => rw [List.cons_append, Asked, Asked, ih, after_cons, and_assoc]

/-! ### The number of constants -/

/-- The constants that there are. -/
def needs (p : Progress) : Needs := ⟨(p.entries.filter (·.global?.isNone)).length, (p.entries.filterMap Entry.global?).toFinset⟩

/-- No global name has two constants. -/
def Distinct (p : Progress) : Prop := (p.entries.filterMap Entry.global?).Nodup

theorem mem_globals {p : Progress} {x : String} : x ∈ p.entries.filterMap Entry.global? ↔ .global x ∈ p.entries := by
  rw [List.mem_filterMap]
  constructor
  · rintro ⟨e, he, hx⟩
    exact Entry.global?_eq_some.1 hx ▸ he
  · exact fun h => ⟨_, h, rfl⟩

theorem Distinct.length_entries {p : Progress} (h : p.Distinct) : p.entries.length = p.needs.count := by
  rw [Needs.count, needs, List.toFinset_card_of_nodup h]
  dsimp only
  induction p.entries with
  | nil => rfl
  | cons e es ih => cases e <;> simp [List.filter_cons, List.filterMap_cons, ih] <;> omega

theorem Distinct.next {p : Progress} (h : p.Distinct) (e : Event) : (p.next e).Distinct := by
  unfold Distinct at h ⊢
  cases e with
  | read | emit | access => exact h
  | literal | function => simpa [Progress.next, List.filterMap_cons] using h
  | ask x =>
    rw [Progress.next]
    split
    · exact h
    · rename_i hx
      rw [List.filterMap_append]
      refine List.nodup_append.2 ⟨h, List.nodup_singleton x, fun y hy z hz heq => hx ?_⟩
      rw [heq, List.mem_singleton.1 hz] at hy
      exact mem_globals.1 hy

theorem Distinct.after {p : Progress} (h : p.Distinct) (es : List Event) : (p.after es).Distinct := by
  induction es generalizing p with
  | nil => exact h
  | cons e es ih => exact ih (h.next e)

theorem needs_next (p : Progress) (e : Event) : (p.next e).needs = p.needs + e.needs := by
  cases e with
  | read | emit | access => exact (Needs.add_zero _).symm
  | literal | function =>
    refine Needs.ext ?_ ?_
    · simp [needs, next, Event.needs, Needs.one, List.filter_cons]
    · simp [needs, next, Event.needs, Needs.one, List.filterMap_cons]
  | ask x =>
    rw [next]
    split
    · rename_i hx
      have hmem : x ∈ p.needs.globals := List.mem_toFinset.2 (mem_globals.2 hx)
      exact Needs.ext rfl (Finset.union_eq_left.2 (Finset.singleton_subset_iff.2 hmem)).symm
    · refine Needs.ext ?_ ?_
      · simp [needs, Event.needs]
      · simp [needs, Event.needs]

theorem needs_after (p : Progress) (es : List Event) : (p.after es).needs = p.needs + Event.allNeeds es := by
  induction es generalizing p with
  | nil => exact (Needs.add_zero _).symm
  | cons e es ih => rw [after_cons, ih, needs_next, Event.allNeeds, Needs.add_assoc]

end Progress

namespace History

/-- At the beginning of a function. -/
def begin (h : History) : Progress := ⟨h.start, []⟩

/-- The constants of the function, in their order. -/
def entries (h : History) : List Entry := (h.begin.after h.events).entries

/-- The code of the function. -/
def code (h : History) : List Instr := h.begin.code h.events

/-- The code of the function with the lines that it comes from, if the lines of the words are these. -/
def placed (line : Nat → Nat) (h : History) : List (Instr × Nat) := h.begin.placed line h.events

theorem distinct (h : History) : (h.begin.after h.events).Distinct := .after (p := h.begin) List.nodup_nil h.events

/-- There is a constant for each literal and each function, and one for each global name. -/
theorem length_entries (h : History) : h.entries.length = (Event.allNeeds h.events).count := by
  rw [entries, h.distinct.length_entries, Progress.needs_after]
  exact congrArg Needs.count (Needs.zero_add _)

end History
end StackScript
