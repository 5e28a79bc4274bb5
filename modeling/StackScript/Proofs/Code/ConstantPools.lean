import StackScript.Proofs.Code.Numbered
import StackScript.Proofs.Code.TracedProgram

/-! The constants of compiled functions. Each literal and each function in a function has a constant of its own, and each
global name has one, in the order in which they are first needed. That there are too many of them is the only thing that
can be wrong with a program that breaks no other rule. -/
namespace StackScript

/-! ### The entries of a history -/

namespace Event

/-- The entry that is asked for. -/
def entry? : Event → Option Entry
  | literal l => some (.literal l)
  | function r _ => some (.function r)
  | ask x => some (.global x)
  | _ => none

theorem mem_globals_allNeeds {x : String} {es : List Event} : x ∈ (allNeeds es).globals ↔ .ask x ∈ es := by
  induction es with
  | nil => simp
  | cons e es ih =>
    rw [allNeeds_cons, Needs.globals_add, Finset.mem_union, ih, List.mem_cons]
    refine or_congr_left ?_
    cases e <;> simp [Event.needs, Needs.one]

end Event

namespace Progress

/-- What there is of constants is told by what has been asked for. -/
theorem mem_entries_after {p : Progress} {es : List Event} {x : String} :
    .global x ∈ (p.after es).entries ↔ .global x ∈ p.entries ∨ .ask x ∈ es := by
  have hglobals : ∀ q : Progress, x ∈ q.needs.globals ↔ .global x ∈ q.entries := fun q => by
    rw [needs, List.mem_toFinset, mem_globals]
  rw [← hglobals, ← hglobals, needs_after, Needs.globals_add, Finset.mem_union, Event.mem_globals_allNeeds]

/-- What is asked for becomes the next entry, but a name that has one keeps it. -/
theorem entries_next_of_entry? {p : Progress} {e : Event} {entry : Entry} (he : e.entry? = some entry)
    (hnew : ∀ x, e = .ask x → .global x ∉ p.entries) : (p.next e).entries = p.entries ++ [entry] := by
  cases e with
  | literal | function =>
    obtain rfl := Option.some.inj he
    rfl
  | ask x =>
    obtain rfl := Option.some.inj he
    rw [next, if_neg (hnew x rfl)]
  | read | emit | access => cases he

end Progress

namespace History
variable {h : History} {pre post : List Event} {e : Event}

theorem length_entries_after (h : History) (es : List Event) :
    (h.begin.after es).entries.length = (Event.allNeeds es).count := (⟨h.start, es⟩ : History).length_entries

theorem mem_entries {x : String} : .global x ∈ h.entries ↔ .ask x ∈ h.events := by
  rw [entries, Progress.mem_entries_after]
  exact or_iff_right List.not_mem_nil

theorem getElem?_entries {entry : Entry} (hes : h.events = pre ++ e :: post) (he : e.entry? = some entry)
    (hnew : ∀ x, e = .ask x → e ∉ pre) : h.entries[(Event.allNeeds pre).count]? = some entry := by
  have hnext := Progress.entries_next_of_entry? (p := h.begin.after pre) he fun x hx hmem => by
    obtain hmem | hmem := Progress.mem_entries_after.1 hmem
    · exact List.not_mem_nil hmem
    · exact hnew x hx (hx ▸ hmem)
  obtain ⟨more, hmore⟩ := ((h.begin.after pre).next e).entries_after post
  rw [entries, hes, Progress.after_append, Progress.after_cons, ← hmore, hnext, List.append_assoc,
    List.getElem?_append_right (Nat.le_of_eq (h.length_entries_after pre)), length_entries_after, Nat.sub_self]
  rfl

/-- All accesses to a global name have the same operand. -/
theorem instr?_access {op : Opcode} {x : String} (hasked : h.begin.Asked h.events)
    (hes : h.events = pre ++ .access op x :: post) : .global x ∈ h.entries ∧
      (h.begin.after pre).instr? (.access op x) = some ⟨op, h.entries.idxOf (.global x)⟩ := by
  rw [hes, Progress.asked_append] at hasked
  have hknows : (h.begin.after pre).Knows x _ := ⟨hasked.2.1 rfl, rfl⟩
  obtain ⟨hmem, hidx⟩ := hknows.after (.access op x :: post)
  rw [← Progress.after_append, ← hes] at hmem hidx
  exact ⟨hmem, by rw [entries, hidx]; rfl⟩

end History

/-! ### The constants of functions -/

/-- The constants of a function are those that its history asks for. -/
structure Function.HoldsConstants (s : Store) (h : History) (f : Function) : Prop where
  pool : List.Forall₂ (Entry.Means s) h.entries f.bytecode.constants.toList
  code : f.bytecode.Consists h.code
  /-- There is one constant for each literal and each function, and one for each global name that is used. -/
  count : h.entries.length = (Event.allNeeds h.events).count
  globals : ∀ {x}, .global x ∈ h.entries ↔ .ask x ∈ h.events
  /-- Their order is that in which they are first needed. -/
  order : ∀ {pre e post entry}, h.events = pre ++ e :: post → e.entry? = some entry → (∀ x, e = .ask x → e ∉ pre) →
    h.entries[(Event.allNeeds pre).count]? = some entry
  /-- Each literal and each function is put on the stack by its own constant. -/
  own : ∀ {pre e post entry}, h.events = pre ++ e :: post → e.entry? = some entry → (∀ x, e ≠ .ask x) →
    (h.begin.after pre).instr? e = some ⟨.constant, (Event.allNeeds pre).count⟩
  /-- All accesses to a name are by the one constant that it has. -/
  access : ∀ {pre op x post}, h.events = pre ++ .access op x :: post → .global x ∈ h.entries ∧
    (h.begin.after pre).instr? (.access op x) = some ⟨op, h.entries.idxOf (.global x)⟩
  /-- No name shares its constant with a literal or a function. -/
  apart : ∀ {pre e post x}, h.events = pre ++ e :: post → e.entry?.isSome → (∀ y, e ≠ .ask y) → .global x ∈ h.entries →
    h.entries.idxOf (.global x) ≠ (Event.allNeeds pre).count
  distinct : (h.entries.filterMap Entry.global?).Nodup

theorem Function.Tells.holdsConstants {s : Store} {line : Nat → Nat} {h : History} {f : Function}
    (hf : f.Tells s line h) :
    f.HoldsConstants s h where
  pool := hf.constants
  code := hf.consists
  count := h.length_entries
  globals := History.mem_entries
  order := History.getElem?_entries
  own := by
    intro pre e post entry hes he hask
    rw [← h.length_entries_after pre]
    cases e with
    | literal | function => rfl
    | ask x => exact absurd rfl (hask x)
    | read | emit | access => cases he
  access := History.instr?_access hf.asked
  apart := by
    intro pre e post x hes he hask hx heq
    obtain ⟨entry, he⟩ := Option.isSome_iff_exists.1 he
    have hentry := History.getElem?_entries hes he fun y hy => absurd hy (hask y)
    rw [← heq, List.getElem?_idxOf hx] at hentry
    obtain rfl := Option.some.inj hentry
    cases e with
    | ask y => exact hask y rfl
    | _ => cases he
  distinct := h.distinct

/-! ### Too many constants -/

/-- Of what breaks no other rule the language asks that no function has too many constants. -/
theorem isLegal_iff_entries {ds : List Decl} (hl : IsLegalButConstants ds) (first : Nat) :
    IsLegal ds ↔ ∀ h ∈ Decl.programHistories first ds, h.entries.length ≤ Bytecode.maxConstants := by
  have hinner : Event.allHistories 0 (Decl.programEvents first ds) =
    Event.allHistories 0 (Decl.listEvents .script first ds) := by
    simp [Decl.programEvents, TokenKind.event]
  have hscript : (⟨0, Decl.programEvents first ds⟩ : History).entries.length = (Decl.listNeeds .script ds).count := by
    rw [History.length_entries, Decl.needs_programEvents]
  rw [isLegal_iff_fewConstants hl, Throughout, Decl.listFewConstants_iff .script first 0 ds, Decl.programHistories,
    List.forall_mem_append, List.forall_mem_singleton, hinner, hscript]

section Compile
variable {source : String} {ds : List Decl}

/-- A program that breaks no other rule is accepted exactly if no function has too many constants. If one has, the first
mistake is that it has. -/
theorem compile_of_legalButConstants (store : Store) (printCode : Bool)
    (hfault : (TokenStream.ofSource source).IsFaultless)
    (hwords : (TokenStream.ofSource source).words = Decl.listWords ds) (hp : IsProgram ds)
    (hl : IsLegalButConstants ds) :
    ((∃ r, (compile source store printCode).result = .ok r) ↔
      ∀ h ∈ Decl.programHistories store.functions.size ds, h.entries.length ≤ Bytecode.maxConstants) ∧
    ∀ es, (compile source store printCode).result = .error es →
      ∃ e, es[0]? = some e ∧ e.mistake = .tooManyConstants := by
  constructor
  · rw [← isLegal_iff_entries hl]
    constructor
    · rintro ⟨r, hr⟩
      exact (reads_of_words hwords hp hr).legal
    · intro hlegal
      obtain ⟨r, hr, -⟩ := compile_of_reads ⟨hfault, hwords, hp, hlegal⟩ store printCode
      exact ⟨r, hr⟩
  · intro es hes
    have hrun : Compiler.UpToMistake
        ((Compiler.wholeScript (TokenStream.ofSource source).lexemes.length).run
          (.start (.ofSource source) store printCode))
        ((Decl.writeProgram ds).run (.start (.ofSource source) store printCode)) :=
      Compiler.follows_wholeScript (kind_ne_eof source) hfault hwords hp
    obtain ⟨hfailed, hlist⟩ := result_eq_error.1 hes
    have hcrowded := (Compiler.tries_writeProgram store printCode hfault (hwords ▸ allSpelled_words source) hl).crowded
    obtain ⟨e, he⟩ := Option.ne_none_iff_exists'.1 (Compiler.failed_iff.1 hfailed)
    refine ⟨e, ?_, hcrowded e (hrun.first.symm.trans he)⟩
    rw [← hlist, Array.getElem?_toList, he]

end Compile

/-- The constants of accepted functions are one for each literal, one for each function declared in the function and one
for each global name used in it, in the order in which they are first needed. The constant of a declared function is that
function, and all accesses to a name have the same operand. Too many constants are reported for a program that breaks
no other rule exactly if more than a byte can name are needed somewhere. -/
theorem compile_constants (source : String) (store : Store) (printCode : Bool) :
    (∀ {r}, (compile source store printCode).result = .ok r →
      ∃ ds fs, (TokenStream.ofSource source).Reads ds ∧
        Event.allWords (Decl.programEvents store.functions.size ds) =
          (TokenStream.ofSource source).words ++ [TokenKind.eof.mark] ∧
        (compile source store printCode).store.functions.toList = store.functions.toList ++ fs ∧
        List.Forall₂ (fun h f => f.HoldsConstants (compile source store printCode).store h)
          (Decl.programHistories store.functions.size ds) fs ∧
        ∀ h ∈ Decl.programHistories store.functions.size ds, ∀ {pre g es post}, h.events = pre ++ .function g es :: post →
          ∃ f, (compile source store printCode).store.function? g = some f ∧
            f.HoldsConstants (compile source store printCode).store ⟨h.start + (Event.allWords pre).length, es⟩) ∧
    ∀ {ds}, (TokenStream.ofSource source).IsFaultless → (TokenStream.ofSource source).words = Decl.listWords ds →
      IsProgram ds → IsLegalButConstants ds →
        ((∃ es, (compile source store printCode).result = .error es ∧ ∃ e ∈ es, e.mistake = .tooManyConstants) ↔
          ∃ h ∈ Decl.programHistories store.functions.size ds, Bytecode.maxConstants < h.entries.length) ∧
        ((∃ r, (compile source store printCode).result = .ok r) ↔
          ∀ h ∈ Decl.programHistories store.functions.size ds, h.entries.length ≤ Bytecode.maxConstants) := by
  constructor
  · intro r hr
    obtain ⟨ds, fs, hreads, hfs, hall⟩ := tells_of_ok hr
    have hholds := hall.imp fun h f hf => hf.holdsConstants
    have hwords := Decl.words_programEvents store.functions.size ds
    rw [← hreads.words] at hwords
    refine ⟨ds, fs, hreads, hwords, hfs, hholds, fun h hh {pre g es post} hes => ?_⟩
    obtain ⟨i, rfl, hi⟩ := Decl.getElem?_programHistories hh hes
    obtain ⟨hlt, hget⟩ := List.getElem?_eq_some_iff.1 hi
    have hlt' : i < fs.length := hholds.length_eq ▸ hlt
    have hplace : (store.functions.toList ++ fs)[store.functions.size + i]? = some fs[i] := by
      rw [← Array.length_toList, List.getElem?_append_right (Nat.le_add_right _ _), Nat.add_sub_cancel_left,
        List.getElem?_eq_getElem hlt']
    refine ⟨fs[i], ?_, ?_⟩
    · rw [Store.function?, ← Array.getElem?_toList, hfs]
      exact hplace
    · rw [← hget]
      exact hholds.get hlt hlt'
  · intro ds hfault hwords hp hl
    obtain ⟨hok, herror⟩ := compile_of_legalButConstants store printCode hfault hwords hp hl
    refine ⟨⟨?_, fun hmany => ?_⟩, hok⟩
    · rintro ⟨es, hes, -⟩
      by_contra hnone
      obtain ⟨r, hr⟩ := hok.2 fun h hh => not_lt.1 fun hlt => hnone ⟨h, hh, hlt⟩
      rw [hr] at hes
      cases hes
    · obtain ⟨h, hh, hlt⟩ := hmany
      cases hresult : (compile source store printCode).result with
      | ok r => exact absurd (hok.1 ⟨r, hresult⟩ h hh) (not_le.2 hlt)
      | error es =>
        obtain ⟨e, he, hm⟩ := herror es hresult
        exact ⟨es, rfl, e, List.mem_of_getElem? he, hm⟩

/-- A name and a string of the same letters have constants of their own, in a script and in a function in it. -/
theorem compile_constants_same_letters :
    (compile "uwu a := \"a\" fwun f() [: ouo a, \"a\", a >> :] f()" {} false).store.functions.toList.map
        (·.bytecode.constants) = [#[.string ⟨0⟩, .string ⟨0⟩], #[.string ⟨0⟩, .string ⟨0⟩, .string ⟨1⟩, .function ⟨0⟩]] ∧
      ∃ ds fs, (TokenStream.ofSource "uwu a := \"a\" fwun f() [: ouo a, \"a\", a >> :] f()").Reads ds ∧
        (compile "uwu a := \"a\" fwun f() [: ouo a, \"a\", a >> :] f()" {} false).store.functions.toList = fs ∧
        List.Forall₂ (fun h f => f.HoldsConstants
            (compile "uwu a := \"a\" fwun f() [: ouo a, \"a\", a >> :] f()" {} false).store h)
          (Decl.programHistories 0 ds) fs ∧
        ∀ h ∈ Decl.programHistories 0 ds, h.entries.length ≤ Bytecode.maxConstants := by
  have hok : (compile "uwu a := \"a\" fwun f() [: ouo a, \"a\", a >> :] f()" {} false).result = .ok ⟨1⟩ := by decide +kernel
  have hconstants := compile_constants "uwu a := \"a\" fwun f() [: ouo a, \"a\", a >> :] f()" {} false
  obtain ⟨ds, fs, hreads, -, hfs, hall, -⟩ := hconstants.1 hok
  exact ⟨by decide +kernel, ds, fs, hreads, hfs, hall,
    (hconstants.2 hreads.faultless hreads.words hreads.program hreads.legal.butConstants).2.1 ⟨_, hok⟩⟩

end StackScript
