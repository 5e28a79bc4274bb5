import StackScript.Proofs.Code.Histories
import StackScript.Proofs.Code.Lines
import StackScript.Proofs.Code.Variables
import StackScript.Proofs.Compiler.Tries
import StackScript.Proofs.Scanning.Lines

/-! Compilations that are accounted for by events. What is in the pool, in the code and in the line table of a function is
told by what has happened since the function was begun. -/
namespace StackScript

/-- The constant of an entry. -/
def Entry.Means (s : Store) : Entry → Value → Prop
  | literal l, v => l.Means s v
  | function r, v => v = .function r
  | global x, v => ∃ a, s.text? a = some x ∧ v = .string a

theorem Entry.Means.mono {s t : Store} (hs : s.Extends t) {e : Entry} {v : Value} (h : e.Means s v) : e.Means t v := by
  cases e with
  | literal l => exact Literal.Means.mono hs h
  | function r => exact h
  | global x => exact h.imp fun a ⟨ha, hv⟩ => ⟨hs.text ha, hv⟩

theorem means_mono {s t : Store} (hs : s.Extends t) {es : List Entry} {vs : List Value}
    (h : List.Forall₂ (Entry.Means s) es vs) : List.Forall₂ (Entry.Means t) es vs :=
  h.imp fun _ _ => Entry.Means.mono hs

/-- A function is what its history tells, if the lines of the words are these. -/
structure Function.Tells (s : Store) (line : Nat → Nat) (h : History) (f : Function) : Prop where
  asked : h.begin.Asked h.events
  lined : f.bytecode.Lined (h.placed line)
  constants : List.Forall₂ (Entry.Means s) h.entries f.bytecode.constants.toList

theorem Function.Tells.consists {s : Store} {line : Nat → Nat} {h : History} {f : Function} (hf : f.Tells s line h) :
    f.bytecode.Consists h.code := by
  have hcode := hf.lined.code
  rwa [History.placed, Progress.map_placed] at hcode

theorem Function.Tells.mono {s t : Store} (hs : s.Extends t) {line : Nat → Nat} {h : History} {f : Function}
    (hf : f.Tells s line h) : f.Tells t line h := ⟨hf.asked, hf.lined, means_mono hs hf.constants⟩

namespace Compiler

/-- The line of the token read last, of the one that comes next, and of those behind it. -/
def State.trail (s : State) (n : Nat) : Nat :=
  (s.previous.line :: s.current.line :: s.upcoming.map Lexeme.line)[n]?.getD s.lastLine

/-- The constants of a function are these, and it is known where its global names are among them. -/
structure Holds (entries : List Entry) (d : Draft) (s : Store) : Prop where
  constants : List.Forall₂ (Entry.Means s) entries d.bytecode.constants.toList
  named : ∀ {a i}, d.names.lookup a = some i →
    ∃ x, s.text? a = some x ∧ .global x ∈ entries ∧ entries.idxOf (.global x) = i.toNat
  known : ∀ {x}, .global x ∈ entries → ∃ a i, s.text? a = some x ∧ d.names.lookup a = some i

theorem Holds.of_store {entries : List Entry} {d : Draft} {s t : Store} (h : Holds entries d s) (hs : s.Extends t) :
    Holds entries d t := by
  refine ⟨means_mono hs h.constants, fun hi => ?_, fun hx => ?_⟩
  · obtain ⟨x, hx, hmem⟩ := h.named hi
    exact ⟨x, hs.text hx, hmem⟩
  · obtain ⟨a, i, ha, hi⟩ := h.known hx
    exact ⟨a, i, hs.text ha, hi⟩

/-- At a place in a tree, the compilation of the function around it has come so far. -/
structure Stands (line : Nat → Nat) (c : Context) (p : Progress) (s : State) : Prop where
  describes : Describes c s
  trail : ∀ n, s.trail n = line (p.words + n)
  holds : Holds p.entries s.draft s.store

/-- Between the states these events have happened, and this is known behind them. -/
structure Traces (line : Nat → Nat) (c : Context) (p : Progress) (es : List Event) (s t : State) : Prop where
  stands : Stands line c (p.after es) t
  code : t.draft.bytecode.code.toList = s.draft.bytecode.code.toList ++ codeBytes (p.code es)
  fits : ∀ i ∈ p.code es, i.Fits
  asked : p.Asked es
  lines : t.draft.bytecode.lines = (byteLines (p.placed line es)).foldl LineTable.push s.draft.bytecode.lines
  store : s.store.Extends t.store
  functions : ∃ fs, t.store.functions.toList = s.store.functions.toList ++ fs ∧
    List.Forall₂ (fun h f => f.Tells t.store line h) (Event.allHistories p.words es) fs

section
variable {line : Nat → Nat} {c d : Context} {p : Progress} {es fs : List Event} {s t u : State}

theorem Traces.trans (h : Traces line c p es s t) (k : Traces line d (p.after es) fs t u) :
    Traces line d p (es ++ fs) s u where
  stands := by
    rw [Progress.after_append]
    exact k.stands
  code := by rw [k.code, h.code, Progress.code_append, codeBytes_append, List.append_assoc]
  fits := by
    rw [Progress.code_append]
    exact List.forall_mem_append.2 ⟨h.fits, k.fits⟩
  asked := Progress.asked_append.2 ⟨h.asked, k.asked⟩
  lines := by rw [k.lines, h.lines, Progress.placed_append, byteLines_append, List.foldl_append]
  store := h.store.trans k.store
  functions := by
    obtain ⟨gs, hgs, hall⟩ := h.functions
    obtain ⟨gs', hgs', hall'⟩ := k.functions
    refine ⟨gs ++ gs', by rw [hgs', hgs, List.append_assoc], ?_⟩
    rw [Event.allHistories_append]
    rw [Progress.words_after] at hall'
    exact List.rel_append (hall.imp fun _ _ hf => hf.mono k.store) hall'

theorem Traces.size (h : Traces line c p es s t) :
    t.draft.bytecode.size = s.draft.bytecode.size + Event.allSize es := by
  rw [Bytecode.size, Bytecode.size, ← Array.length_toList, h.code, List.length_append, length_codeBytes,
    Progress.codeLength_code, Array.length_toList]

/-- Where no function ends there is none more. -/
theorem Traces.functions_eq (h : Traces line c p es s t) (hes : Event.allHistories p.words es = []) :
    t.store.functions = s.store.functions := by
  obtain ⟨fs, hfs, hall⟩ := h.functions
  rw [hes, List.forall₂_nil_left_iff] at hall
  rw [hall, List.append_nil] at hfs
  exact Array.toList_inj.1 hfs

/-! ### Where nothing happens -/

/-- Nothing that events tell has changed between the states. -/
structure Quiet (s t : State) : Prop where
  tokens : SameTokens s t
  bytecode : t.draft.bytecode = s.draft.bytecode
  names : t.draft.names = s.draft.names
  store : s.store.Extends t.store
  functions : t.store.functions = s.store.functions

instance : Std.Refl Quiet where
  refl s := ⟨Std.Refl.refl s, rfl, rfl, .refl _, rfl⟩

instance : IsTrans State Quiet where
  trans _ _ _ h k := ⟨IsTrans.trans _ _ _ h.tokens k.tokens, k.bytecode.trans h.bytecode, k.names.trans h.names,
    h.store.trans k.store, k.functions.trans h.functions⟩

theorem trail_eq (h : SameTokens s t) : t.trail = s.trail := by
  funext n
  simp only [State.trail, h.current, h.upcoming, h.previous, h.lastLine]

theorem Stands.quiet (h : Stands line c p s) (hd : Describes d t) (hq : Quiet s t) : Traces line d p [] s t where
  stands :=
    { describes := hd
      trail := fun n => by rw [trail_eq hq.tokens, h.trail, Progress.after_nil]
      holds := by
        have hh := h.holds.of_store hq.store
        exact ⟨by rw [hq.bytecode]; exact hh.constants, by rw [hq.names]; exact hh.named,
          by rw [hq.names]; exact hh.known⟩ }
  code := by rw [hq.bytecode]; exact (List.append_nil _).symm
  fits := by simp [Progress.code]
  asked := trivial
  lines := by rw [hq.bytecode]; rfl
  store := hq.store
  functions := ⟨[], by rw [hq.functions, List.append_nil], .nil⟩

theorem Stands.refl (h : Stands line c p s) : Traces line c p [] s s := h.quiet h.describes (Std.Refl.refl s)

end
end Compiler
end StackScript
