import StackScript.Proofs.Machine.Trace
import StackScript.Proofs.Parsing.Joined
import StackScript.Proofs.Scanning.Joined
import StackScript.Proofs.Semantics.Joined

/-! A session and a script: giving a machine two sources one after another is giving it both at once, with a line break
between them. -/
namespace StackScript
open Compiler

/-! ### Sources -/

section
variable {a b : String} {ds es : List Decl} {store : Store} {printCode : Bool} {r : FunctionRef}

/-- Two programs are read as one where nothing at the end of the first source takes in the start of the second one. -/
theorem reads_join (ha : (TokenStream.ofSource a).Reads ds) (hb : (TokenStream.ofSource b).Reads es)
    (hab : (compile (a ++ "\n" ++ b) store printCode).result = .ok r) (closed : ¬(Cursor.ofSource a).EndsInComment)
    (paren : headKind (TokenStream.ofSource b).words ≠ .leftParen)
    (minus : headKind (TokenStream.ofSource b).words ≠ .minus) :
    (TokenStream.ofSource (a ++ "\n" ++ b)).Reads (ds ++ es) := by
  have hwords := words_ofSource_join (b := b) ha.faultless closed
  rw [ha.words, hb.words] at hwords
  rw [hb.words] at paren minus
  obtain ⟨_, hjoined⟩ := reads_of_ok hab
  have hstream := stream_start {} false hjoined.faultless (kind_ne_eof _)
  rw [hwords] at hstream
  refine reads_of_words (hwords.trans (Decl.listWords_append ds es).symm) ?_ hab
  exact ha.program.append hb.program ⟨_, hstream⟩ paren minus

/-- No source spells the name of slot zero. -/
theorem name_ne_empty {x : String} (hx : ⟨.ident, x⟩ ∈ (TokenStream.ofSource a).words) : x ≠ "" := by
  rintro rfl
  exact allSpelled_words a _ hx rfl

end

/-! ### Numbers of functions -/

/-- From a number on, functions have numbers that are greater by one, since there is a script in front of them. -/
def Pairing.behind (n : Nat) : Pairing where
  pairs f g := f.index < n ∧ f.index = g.index ∨ n < f.index ∧ f.index = g.index + 1
  unique := by
    rintro ⟨f⟩ ⟨g⟩ ⟨f'⟩ ⟨g'⟩ h h'
    simp only [FunctionRef.mk.injEq] at h h' ⊢
    omega
  lines := True

mutual

/-- All functions of a tree are in the store that its code refers to. -/
theorem Decl.Code.number_lt {κ : Pool} (σ : Scope) (first : Nat) (d : Decl) (is : List Instr)
    (h : d.Code κ σ first is) {k : Nat} (hk : k < d.functionCount) : first + k < κ.store.functions.size := by
  cases d with
  | if_ condition body =>
    obtain ⟨ic, ib, -, hb, -⟩ := h
    exact ListCode.number_lt _ first body ib hb hk
  | ifElse condition body alternative =>
    obtain ⟨ic, ib, ia, -, hb, ha, -⟩ := h
    by_cases hfront : k < listFunctionCount body
    · exact ListCode.number_lt _ first body ib hb hfront
    · rw [functionCount] at hk
      have hback := ListCode.number_lt _ _ alternative ia ha (k := k - listFunctionCount body) (by omega)
      rwa [show first + listFunctionCount body + (k - listFunctionCount body) = first + k by omega] at hback
  | until_ condition body =>
    obtain ⟨ic, ib, -, hb, -⟩ := h
    exact ListCode.number_lt _ first body ib hb hk
  | block mark body =>
    obtain ⟨ib, hb, -⟩ := h
    exact ListCode.number_lt _ first body ib hb hk
  | fun_ x parameters body =>
    obtain ⟨i, f, ib, js, -, hf, -, hb, -⟩ := h
    obtain hlast | rfl := Nat.lt_succ_iff_lt_or_eq.1 hk
    · exact ListCode.number_lt _ first body ib hb hlast
    · exact (Array.getElem?_eq_some_iff.1 hf).1
  | _ => exact absurd hk (Nat.not_lt_zero k)

theorem Decl.ListCode.number_lt {κ : Pool} (σ : Scope) (first : Nat) (ds : List Decl) (is : List Instr)
    (h : ListCode κ σ first ds is) {k : Nat} (hk : k < listFunctionCount ds) : first + k < κ.store.functions.size := by
  cases ds with
  | nil => exact absurd hk (Nat.not_lt_zero k)
  | cons d ds =>
    obtain ⟨id, js, hd, hs, -⟩ := h
    by_cases hfront : k < d.functionCount
    · exact Decl.Code.number_lt σ first d id hd hfront
    · rw [listFunctionCount] at hk
      have hback := ListCode.number_lt _ _ ds js hs (k := k - d.functionCount) (by omega)
      rwa [show first + d.functionCount + (k - d.functionCount) = first + k by omega] at hback

end

section
variable {l : Limits} {m : Machine} {w : World} {n : Nat}

/-- A value of a machine is not told apart by the numbers of functions that come later. -/
theorem Denotes.renumbered {s : Store} {v : Value} {d : Datum} (h : Denotes s v d) (hn : s.functions.size ≤ n) :
    d.Renumbered (.behind n) d := by
  cases h with
  | null => exact .null
  | bool b => exact .bool b
  | number x => exact .number x
  | char byte => exact .char byte
  | string _ => exact .string _
  | native _ => exact .native _
  | @function r f t hr ht =>
    obtain ⟨ib, -, hcode⟩ := ht
    have hlt : r.index < s.functions.size := (Array.getElem?_eq_some_iff.1 hr).1
    refine .function (.inl ⟨Nat.lt_of_lt_of_le hlt hn, rfl⟩) ⟨rfl, rfl, rfl, fun k hk => ?_⟩
    exact .inl ⟨Nat.lt_of_lt_of_le (hcode.number_lt _ _ _ _ hk) hn, rfl⟩

theorem Mirrors.reliable (h : Mirrors l m w) (reliable : m.console.Reliable) : w.console.Reliable := by
  have hvisible := h.console
  exact ⟨(congrArg Console.inputBroken hvisible).symm.trans reliable.readable,
    (congrArg Console.room hvisible).symm.trans reliable.writable,
    (congrArg Console.failingFlush hvisible).symm.trans reliable.flushable⟩

theorem Mirrors.renumbered (h : Mirrors l m w) (reliable : m.console.Reliable) (hn : w.declared ≤ n) :
    w.Renumbered (.behind n) w := by
  refine ⟨fun x => ?_, rfl, rfl, h.reliable reliable, h.reliable reliable⟩
  have hglobal := h.globals x
  generalize m.global? x = o at hglobal
  generalize w.globals x = o' at hglobal ⊢
  cases hglobal with
  | none => exact .none
  | some hd => exact .some (hd.renumbered (h.declared ▸ hn))

theorem uniform_limits (uniform : ∀ n ∈ m.store.natives, IsUniform n.call) (p : Pairing) : m.limits.Uniform p := by
  intro r host ds ds' hhost hds
  obtain ⟨f, hf, rfl⟩ := Option.map_eq_some_iff.1 hhost
  exact .call (uniform f (Array.mem_of_getElem? hf)) hds

end

/-! ### Sessions -/

namespace Machine

/-- Interprets a source, and another one after it if that has gone well, each for at most a number of steps. -/
def interpretBoth (steps : Nat) (a b : String) (m : Machine) : Option (Outcome × Machine) :=
  match m.interpret steps a with
  | some (.ok, m₁) => m₁.interpret steps b
  | r => r

/-- Both have gone well, or both have failed with one error while the same functions were active. -/
inductive Outcome.SameKind : Outcome → Outcome → Prop
  | ok : SameKind .ok .ok
  | failed {e : RuntimeError} {trace trace' : List TraceLine} (h : trace.map TraceLine.function = trace'.map TraceLine.function) :
      SameKind (.failure (.failed e trace)) (.failure (.failed e trace'))

/-- What can be seen of two machines that have come to an end, and of how they have, is the same. -/
structure SameView (o o' : Outcome × Machine) : Prop where
  kind : o.1.SameKind o'.1
  output : o.2.console.output = o'.2.console.output
  input : o.2.console.input = o'.2.console.input
  globals : ∀ x, (o.2.global? x).map o.2.store.display? = (o'.2.global? x).map o'.2.store.display?

theorem runFor_mono {m : Machine} {n k : Nat} {x : Halt × Machine} (h : runFor n m = some x) (hle : n ≤ k) :
    runFor k m = some x := by
  induction n generalizing m k with
  | zero => cases h
  | succ n ih =>
    obtain ⟨k, rfl⟩ : ∃ j, k = j + 1 := Nat.exists_eq_add_one.2 (Nat.lt_of_lt_of_le (Nat.succ_pos n) hle)
    rw [runFor] at h ⊢
    generalize cycle.run m = result at h ⊢
    cases result with
    | ok _ m' => exact ih h (Nat.le_of_succ_le_succ hle)
    | error halt m' => exact h

theorem interpret_mono {m : Machine} {source : String} {n k : Nat} {o : Outcome × Machine}
    (h : m.interpret n source = some o) (hle : n ≤ k) : m.interpret k source = some o := by
  unfold interpret at h ⊢
  cases hstart : m.start source with
  | error early =>
    rw [hstart] at h
    exact h
  | ok b =>
    rw [hstart] at h
    obtain ⟨x, hx, rfl⟩ := Option.map_eq_some_iff.1 h
    simp only [runFor_mono hx hle, Option.map_some]

end Machine

section
variable {m : Machine} {l : Limits} {w : World} {a b : String} {ds es : List Decl} {steps n : Nat} {o : Machine.Outcome × Machine}

/-- A session that is over is a walk through both programs, if that is allowed to be as long. -/
theorem exists_runBoth (hm : m.Resting) (hw : Mirrors l m w) (ha : (TokenStream.ofSource a).Reads ds)
    (hb : (TokenStream.ofSource b).Reads es) (ho : m.interpretBoth steps a b = some o) (hle : steps ≤ n) :
    ∃ e, w.runBoth l n ds es = some e ∧ Agrees l o e := by
  unfold Machine.interpretBoth at ho
  unfold World.runBoth
  cases hfirst : m.interpret steps a with
  | none =>
    rw [hfirst] at ho
    cases ho
  | some o₁ =>
    obtain ⟨outcome, m₁⟩ := o₁
    obtain ⟨⟨ending, w₁⟩, he⟩ := exists_run hm hw ha hfirst hle
    have hagrees := (interpret_iff_run hm hw ha).2 steps n _ _ hfirst he
    rw [hfirst] at ho
    rw [he]
    obtain ⟨hending, hmirrors⟩ := hagrees
    dsimp only at hending hmirrors
    cases hending with
    | ok =>
      have hrest := hm.interpret hfirst
      obtain ⟨e, he⟩ := exists_run hrest hmirrors hb ho hle
      exact ⟨e, he, (interpret_iff_run hrest hmirrors hb).2 steps n _ _ ho he⟩
    | failed hnames =>
      obtain rfl := Option.some.inj ho
      exact ⟨_, rfl, .failed hnames, hmirrors⟩

theorem exists_interpretBoth (hm : m.Resting) (hw : Mirrors l m w) (ha : (TokenStream.ofSource a).Reads ds)
    (hb : (TokenStream.ofSource b).Reads es) {e : World.Ending × World} (he : w.runBoth l n ds es = some e) :
    ∃ steps o, m.interpretBoth steps a b = some o := by
  unfold World.runBoth at he
  cases hfirst : w.run l n ds with
  | none =>
    rw [hfirst] at he
    cases he
  | some e₁ =>
    obtain ⟨hiff, hagrees⟩ := interpret_iff_run hm hw ha
    obtain ⟨k, ⟨outcome, m₁⟩, hk⟩ := hiff.2 ⟨n, e₁, hfirst⟩
    obtain ⟨ending, w₁⟩ := e₁
    obtain ⟨hending, hmirrors⟩ := hagrees k n _ _ hk hfirst
    rw [hfirst] at he
    dsimp only at hending hmirrors
    cases hending with
    | ok =>
      obtain ⟨k', o, hk'⟩ := (interpret_iff_run (hm.interpret hk) hmirrors hb).1.2 ⟨n, e, he⟩
      refine ⟨max k k', o, ?_⟩
      rw [Machine.interpretBoth, Machine.interpret_mono hk (Nat.le_max_left k k')]
      exact Machine.interpret_mono hk' (Nat.le_max_right k k')
    | @failed e trace _ _ =>
      refine ⟨k, (.failure (.failed e trace), m₁), ?_⟩
      rw [Machine.interpretBoth, hk]

/-- Machines that go with worlds that are the same but for the numbers of functions look the same. -/
theorem sameView_of_sameEnd {p : Pairing} {o' : Machine.Outcome × Machine} {e e' : World.Ending × World}
    (h : Agrees l o e) (h' : Agrees l o' e') (hsame : World.SameEnd p e e') : Machine.SameView o o' where
  kind := by
    obtain ⟨outcome, m⟩ := o
    obtain ⟨outcome', m'⟩ := o'
    obtain ⟨ending, w⟩ := e
    obtain ⟨ending', w'⟩ := e'
    obtain ⟨rfl, -⟩ := hsame
    have hending := h.ending
    have hending' := h'.ending
    dsimp only at hending hending' ⊢
    cases hending with
    | ok =>
      cases hending'
      exact .ok
    | failed hnames =>
      cases hending' with
      | failed hnames' => exact .failed (hnames.trans hnames'.symm)
  output := (congrArg Console.output h.mirrors.console).trans
    (hsame.2.console.output.trans (congrArg Console.output h'.mirrors.console).symm)
  input := (congrArg Console.input h.mirrors.console).trans
    (hsame.2.console.input.trans (congrArg Console.input h'.mirrors.console).symm)
  globals x := by
    have hleft := h.mirrors.globals x
    have hright := h'.mirrors.globals x
    have hboth := hsame.2.globals x
    generalize o.2.global? x = v at hleft
    generalize o'.2.global? x = v' at hright
    generalize e.2.globals x = d at hleft hboth
    generalize e'.2.globals x = d' at hright hboth
    cases hleft with
    | none =>
      cases hboth
      cases hright
      rfl
    | some hd =>
      cases hboth with
      | some hdd =>
        cases hright with
        | some hd' => rw [Option.map_some, Option.map_some, hd.display?_eq, hd'.display?_eq, hdd.text_eq]

/-- What the first source has left is a world in which the functions that come next have numbers that are greater by one
than they would be without the script of the first source. -/
theorem declared_run (hm : m.Resting) (hw : Mirrors l m w) (ha : (TokenStream.ofSource a).Reads ds) {w₁ : World}
    (hrun : w.run l n ds = some (.ok (), w₁)) : ∃ m₁ : Machine, m₁.Resting ∧ Mirrors l m₁ w₁ ∧
      w₁.declared = w.declared + Decl.listFunctionCount ds + 1 := by
  obtain ⟨hiff, hagrees⟩ := interpret_iff_run hm hw ha
  obtain ⟨k, ⟨outcome, m₁⟩, hk⟩ := hiff.2 ⟨n, _, hrun⟩
  have hmirrors : Mirrors l m₁ w₁ := (hagrees k n _ _ hk hrun).mirrors
  obtain ⟨r, -, -, hgains⟩ := compile_of_reads ha m.store m.config.printCode
  refine ⟨m₁, hm.interpret hk, hmirrors, ?_⟩
  rw [← hmirrors.declared, hm.functions_interpret hk, hgains.size, hw.declared]

/-- Giving a machine two sources one after another, the second one only if the first one has gone well, is giving it both
as one source. Both come to an end, or none does, and then they have written the same and left the same input, and the same
names have values that are shown alike. -/
theorem Machine.session_join {r₁ r₂ r : FunctionRef} (hm : m.Idle) (uniform : ∀ n ∈ m.store.natives, IsUniform n.call)
    (reliable : m.console.Reliable) (ha : (compile a m.store m.config.printCode).result = .ok r₁)
    (hb : (compile b m.store m.config.printCode).result = .ok r₂)
    (hab : (compile (a ++ "\n" ++ b) m.store m.config.printCode).result = .ok r)
    (closed : ¬(Cursor.ofSource a).EndsInComment) (paren : headKind (TokenStream.ofSource b).words ≠ .leftParen)
    (minus : headKind (TokenStream.ofSource b).words ≠ .minus) :
    ((∃ steps o, m.interpretBoth steps a b = some o) ↔ ∃ steps o, m.interpret steps (a ++ "\n" ++ b) = some o) ∧
      ∀ steps steps' o o', m.interpretBoth steps a b = some o → m.interpret steps' (a ++ "\n" ++ b) = some o' →
        SameView o o' := by
  obtain ⟨ds, hds⟩ := reads_of_ok ha
  obtain ⟨es, hes⟩ := reads_of_ok hb
  have hjoin := reads_join hds hes hab closed paren minus
  have hrest := hm.resting
  obtain ⟨w, hw⟩ := exists_mirrors hrest.sound uniform
  -- functions of the second source come behind the script of the first one in the session only
  have hsame := World.run_append (uniform_limits uniform (.behind (w.declared + Decl.listFunctionCount ds)))
    (hw.renumbered reliable (Nat.le_add_right _ _)) (fun k hk => .inl ⟨Nat.add_lt_add_left hk _, rfl⟩)
    (World.isClosed_of_reads hrest hw hds) (World.isClosed_of_reads hrest hw hjoin)
    (fun hmax {n w₁} hrun => by
      obtain ⟨m₁, hrest₁, hw₁, hdeclared⟩ := declared_run hrest hw hds hrun
      refine ⟨World.isClosed_of_reads hrest₁ hw₁ hes hmax, fun k _ => .inr ?_⟩
      rw [hdeclared]
      simp only
      omega)
    (fun x hx => by
      rw [← hds.words, ← hes.words] at hx
      exact (List.mem_append.1 hx).elim name_ne_empty name_ne_empty)
  obtain ⟨hiff, hagrees⟩ := interpret_iff_run hrest hw hjoin
  refine ⟨⟨fun ⟨steps, o, ho⟩ => ?_, fun ⟨steps, o, ho⟩ => ?_⟩, fun steps steps' o o' ho ho' => ?_⟩
  · obtain ⟨e, he, -⟩ := exists_runBoth hrest hw hds hes ho (Nat.le_refl steps)
    have hends := hsame steps
    generalize hboth : w.run m.limits steps (ds ++ es) = x at hends
    rw [he] at hends
    cases hends with
    | some _ => exact hiff.2 ⟨steps, _, hboth⟩
  · obtain ⟨e, he⟩ := exists_run hrest hw hjoin ho (Nat.le_refl steps)
    have hends := hsame steps
    generalize hboth : w.runBoth m.limits steps ds es = x at hends
    rw [he] at hends
    cases hends with
    | some _ => exact exists_interpretBoth hrest hw hds hes hboth
  · obtain ⟨e, he, hagree⟩ := exists_runBoth hrest hw hds hes ho (Nat.le_max_left steps steps')
    obtain ⟨e', he'⟩ := exists_run hrest hw hjoin ho' (Nat.le_max_right steps steps')
    have hends := hsame (max steps steps')
    rw [he, he'] at hends
    cases hends with
    | some hend => exact sameView_of_sameEnd hagree (hagrees steps' _ o' e' ho' he') hend

/-- A line is read into a variable by the first source, and a function of the second one gives it back. -/
theorem Machine.session_join_line : ∃ o o' : Outcome × Machine,
    (Machine.new {} { input := [104, 105, 10, 33] }).interpretBoth 99 "uwu x iwi -s x <<" "fwun f() [: out x >> :] ouo f() >>" =
      some o ∧
    (Machine.new {} { input := [104, 105, 10, 33] }).interpret 99
      ("uwu x iwi -s x <<" ++ "\n" ++ "fwun f() [: out x >> :] ouo f() >>") = some o' ∧
    o.1 = .ok ∧ o.2.console.output.toList = [104, 105] ∧ SameView o o' := by
  have hboth : ((Machine.new {} { input := [104, 105, 10, 33] }).interpretBoth 99 "uwu x iwi -s x <<"
      "fwun f() [: out x >> :] ouo f() >>").map (fun o => (o.1, o.2.console.output.toList)) = some (.ok, [104, 105]) := by
    decide +kernel
  obtain ⟨o, ho, hview⟩ := Option.map_eq_some_iff.1 hboth
  obtain ⟨hok, houtput⟩ := Prod.mk.inj hview
  have ha : (compile "uwu x iwi -s x <<" (Machine.new {} { input := [104, 105, 10, 33] }).store false).result = .ok ⟨0⟩ := by
    decide +kernel
  have hb : (compile "fwun f() [: out x >> :] ouo f() >>" (Machine.new {} { input := [104, 105, 10, 33] }).store false).result =
      .ok ⟨1⟩ := by decide +kernel
  have hab : (compile ("uwu x iwi -s x <<" ++ "\n" ++ "fwun f() [: out x >> :] ouo f() >>")
      (Machine.new {} { input := [104, 105, 10, 33] }).store false).result = .ok ⟨1⟩ := by decide +kernel
  obtain ⟨-, hsame⟩ := session_join (.new {} { input := [104, 105, 10, 33] })
    (natives_new (fun _ => isUniform_of_mem_mathNatives) {} _) ⟨rfl, rfl, rfl⟩ ha hb hab
    (not_endsInComment (by decide)) (by decide +kernel) (by decide +kernel)
  have hjoined : ((Machine.new {} { input := [104, 105, 10, 33] }).interpret 99
      ("uwu x iwi -s x <<" ++ "\n" ++ "fwun f() [: out x >> :] ouo f() >>")).isSome = true := by decide +kernel
  obtain ⟨o', ho'⟩ := Option.isSome_iff_exists.1 hjoined
  exact ⟨o, o', ho, ho', hok, houtput, hsame 99 99 o o' ho ho'⟩

end

end StackScript
