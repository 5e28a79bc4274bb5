import StackScript.Proofs.Code.Expression

/-! What is asked of declarations and statements at a place, form by form. -/
namespace StackScript
open Compiler

/-- Behind a block. -/
def Compiler.Context.afterBlock (c : Context) (ds : List Decl) : Context where
  scope := c.scope
  needs := c.needs + Decl.listNeeds c.scope.enter ds
  functions := c.functions + Decl.listFunctionCount ds

/-- In the outermost block of a function. -/
def Compiler.Context.inside (c : Context) (parameters : List String) : Context :=
  { scope := .function parameters, functions := c.functions }

namespace Decl
variable {c : Context} {strict : Prop}

/-- What is asked of a declaration at a place: conditions of the language in it, with those on jumps or without,
a name that the block does not have yet, and room for its constants. -/
structure Admitted (c : Context) (d : Decl) (strict : Prop := True) : Prop where
  everywhere : d.Everywhere (Decl.Judged strict) (Expr.Judged strict) c.scope
  fresh : c.scope.isLocal = true → ∀ x ∈ d.declared, x ∉ c.scope.inner
  room : c.Room (d.needs c.scope)

structure ListAdmitted (c : Context) (ds : List Decl) (strict : Prop := True) : Prop where
  everywhere : ListEverywhere (Decl.Judged strict) (Expr.Judged strict) c.scope ds
  fresh : c.scope.isLocal = true → (listDeclared ds ++ c.scope.inner).Nodup
  room : c.Room (listNeeds c.scope ds)

/-- Behind a declaration. -/
def after (c : Context) (d : Decl) : Context where
  scope := c.scope.after d
  needs := c.needs + d.needs c.scope
  functions := c.functions + d.functionCount

def listAfter (c : Context) (ds : List Decl) : Context where
  scope := c.scope.afterAll ds
  needs := c.needs + listNeeds c.scope ds
  functions := c.functions + listFunctionCount ds

theorem listAfter_cons {d : Decl} {ds : List Decl} : listAfter (d.after c) ds = listAfter c (d :: ds) := by
  simp only [listAfter, after, listNeeds, listFunctionCount, Scope.afterAll_cons, Needs.add_assoc,
    Nat.add_assoc]

theorem declared_cases (d : Decl) : d.declared = [] ∨ ∃ x, d.declared = [x] := by
  cases d <;> first
    | exact .inl rfl
    | exact .inr ⟨_, rfl⟩

theorem nodup_after {σ : Scope} (h : σ.isLocal = true) (d : Decl) (xs : List String) :
    (d.declared ++ xs ++ σ.inner).Nodup ↔
      (∀ x ∈ d.declared, x ∉ σ.inner) ∧ (xs ++ (σ.after d).inner).Nodup := by
  rw [Scope.after, Scope.foldl_declare h]
  rcases d.declared_cases with hd | ⟨x, hd⟩
  · simp [hd]
  · simp only [hd, List.mem_singleton, forall_eq, List.reverse_singleton, List.nodup_middle,
      List.cons_append]
    exact (and_iff_right_of_imp fun hn hx =>
      (List.nodup_cons.1 hn).1 (List.mem_append_right _ hx)).symm

/-- The names of a block stay distinct. -/
theorem Admitted.nodup_after {d : Decl} (ha : d.Admitted c)
    (hn : c.scope.isLocal = true → c.scope.inner.Nodup) :
    (d.after c).scope.isLocal = true → (d.after c).scope.inner.Nodup := by
  intro hl
  rw [after, Scope.isLocal_after] at hl
  refine ((Decl.nodup_after hl d []).1 ?_).2
  rcases d.declared_cases with hd | ⟨x, hd⟩
  · simpa [hd] using hn hl
  · simpa [hd] using ⟨ha.fresh hl x (by simp [hd]), hn hl⟩

theorem listAdmitted_cons {d : Decl} {ds : List Decl} :
    ListAdmitted c (d :: ds) strict ↔ d.Admitted c strict ∧ ListAdmitted (d.after c) ds strict := by
  have hroom : c.Room (d.needs c.scope) ∧ (d.after c).Room (listNeeds (c.scope.after d) ds) ↔
      c.Room (listNeeds c.scope (d :: ds)) := Context.room_add
  constructor
  · rintro ⟨⟨he, hes⟩, hf, hr⟩
    obtain ⟨hr, hrs⟩ := hroom.2 hr
    refine ⟨⟨he, fun hl => ((nodup_after hl d _).1 (hf hl)).1, hr⟩, hes, fun hl => ?_, hrs⟩
    rw [after, Scope.isLocal_after] at hl
    exact ((nodup_after hl d _).1 (hf hl)).2
  · rintro ⟨⟨he, hf, hr⟩, hes, hfs, hrs⟩
    refine ⟨⟨he, hes⟩, fun hl => (nodup_after hl d _).2 ⟨hf hl, hfs ?_⟩, hroom.1 ⟨hr, hrs⟩⟩
    rwa [after, Scope.isLocal_after]

theorem after_if {e : Expr} {ds : List Decl} : (if_ e ds).after c = (e.after c).afterBlock ds := by
  simp only [after, needs, Context.afterBlock, Expr.after, Context.needs_add, Context.scope_add,
    Needs.add_assoc, Context.functions_add, functionCount]
  rfl

theorem after_until {e : Expr} {ds : List Decl} :
    (until_ e ds).after c = (e.after c).afterBlock ds := after_if

theorem after_ifElse {e : Expr} {ds es : List Decl} :
    (ifElse e ds es).after c = ((e.after c).afterBlock ds).afterBlock es := by
  simp only [after, needs, Context.afterBlock, Expr.after, Context.needs_add, Context.scope_add,
    Needs.add_assoc, Context.functions_add, functionCount, Nat.add_assoc]
  rfl

theorem after_out_none (hp : c.pending = none) : (out none).after c = c := by
  rw [after, needs, Needs.add_zero, functionCount, Nat.add_zero, Scope.after]
  · rw [← hp]
    rfl
  all_goals
    intros
    contradiction

theorem after_fun {x : String} {xs : List String} {ds : List Decl} :
    (fun_ x xs ds).after c =
      { scope := c.scope.declare x,
        needs := c.needs + nameNeeds c.scope x + .one,
        functions := c.functions + listFunctionCount ds + 1 } := by
  rw [Needs.add_assoc, Nat.add_assoc]
  rfl

/-! ### What is asked of each form -/

attribute [local simp] Everywhere Decl.Judged OutInFunction DistinctNames OwnNameUnread FewParameters
  FewSlots FewConstants ShortJumps declared needs

theorem admitted_iff {d : Decl} : d.Admitted c strict ↔ d.Everywhere (Decl.Judged strict) (Expr.Judged strict) c.scope ∧
    (c.scope.isLocal = true → ∀ x ∈ d.declared, x ∉ c.scope.inner) ∧ c.Room (d.needs c.scope) :=
  ⟨fun ⟨h1, h2, h3⟩ => ⟨h1, h2, h3⟩, fun ⟨h1, h2, h3⟩ => ⟨h1, h2, h3⟩⟩

theorem listAdmitted_enter {ds : List Decl} : ListAdmitted c.enter ds strict ↔
    ListEverywhere (Decl.Judged strict) (Expr.Judged strict) c.scope.enter ds ∧ (listDeclared ds).Nodup ∧
      c.Room (listNeeds c.scope.enter ds) := by
  have hempty : c.enter.scope.inner = [] := rfl
  constructor
  · rintro ⟨h1, h2, h3⟩
    rw [hempty, List.append_nil] at h2
    exact ⟨h1, h2 rfl, h3⟩
  · rintro ⟨h1, h2, h3⟩
    refine ⟨h1, fun _ => ?_, h3⟩
    rwa [hempty, List.append_nil]

theorem admitted_of_none (hp : c.pending = none) {e : Expr} :
    e.Admitted c strict ↔ e.Everywhere (Expr.Judged strict) ∧ c.Room (e.needs c.scope.names) := by
  simp [Expr.Admitted, Context.Admits, hp]

theorem allAdmitted_of_none (hp : c.pending = none) {es : List Expr} :
    Expr.AllAdmitted c es strict ↔
      Expr.AllEverywhere (Expr.Judged strict) es ∧ c.Room (Expr.allNeeds c.scope.names es) := by
  simp [Expr.AllAdmitted, Context.Admits, hp]

section Forms
variable (hp : c.pending = none)
include hp

theorem admitted_expression {e : Expr} : (expression e).Admitted c strict ↔ e.Admitted c strict := by
  simp [admitted_iff, admitted_of_none hp]

theorem admitted_print {e : Expr} {es : List Expr} :
    (print e es).Admitted c strict ↔ e.Admitted c strict ∧ Expr.AllAdmitted (e.after c) es strict := by
  rw [admitted_of_none hp, allAdmitted_of_none (by exact hp), admitted_iff]
  simp only [Everywhere, Decl.Judged, OutInFunction, DistinctNames,
    OwnNameUnread, FewParameters, FewSlots, FewConstants, ShortJumps, declared, needs, Expr.after,
    Context.scope_add, ← Context.room_add]
  simp
  tauto

theorem admitted_read {form : InputForm} {x : String} :
    (read form x).Admitted c strict ↔ c.pending ≠ some x ∧ c.Room (.name c.scope.names x) := by
  simp [admitted_iff, hp]

theorem admits_if {e : Expr} {ds : List Decl} : (if_ e ds).Admitted c strict ↔ e.Admitted c strict ∧
    ListAdmitted (e.after c).enter ds strict ∧ (strict → blockSize ds + 4 ≤ maxDistance) := by
  rw [admitted_of_none hp, listAdmitted_enter, admitted_iff]
  simp [Expr.after, ← Context.room_add]
  tauto

theorem admits_until {e : Expr} {ds : List Decl} : (until_ e ds).Admitted c strict ↔ e.Admitted c strict ∧
    ListAdmitted (e.after c).enter ds strict ∧ (strict → e.size + blockSize ds + 7 ≤ maxDistance) := by
  rw [admitted_of_none hp, listAdmitted_enter, admitted_iff]
  simp [Expr.after, ← Context.room_add]
  tauto

theorem admits_ifElse {e : Expr} {ds es : List Decl} : (ifElse e ds es).Admitted c strict ↔ e.Admitted c strict ∧
    ListAdmitted (e.after c).enter ds strict ∧ (strict → blockSize ds + 4 ≤ maxDistance) ∧
      ListAdmitted ((e.after c).afterBlock ds).enter es strict ∧ (strict → blockSize es + 1 ≤ maxDistance) := by
  rw [admitted_of_none hp, listAdmitted_enter, listAdmitted_enter, admitted_iff]
  have hroom : c.Room (needs c.scope (ifElse e ds es)) ↔ c.Room (e.needs c.scope.names) ∧
      (e.after c).Room (listNeeds c.scope.enter ds) ∧
        ((e.after c).afterBlock ds).Room (listNeeds c.scope.enter es) := by
    rw [needs, ← Context.room_add, ← Context.room_add, and_assoc, ← Context.add_add]
    rfl
  rw [hroom]
  simp [Expr.after, Context.afterBlock]
  tauto

theorem admitted_if {e : Expr} {ds : List Decl} : (if_ e ds).Admitted c ↔ e.Admitted c ∧
    ListAdmitted (e.after c).enter ds ∧ blockSize ds + 4 ≤ maxDistance := by
  rw [admits_if hp, true_imp_iff]

theorem admitted_until {e : Expr} {ds : List Decl} : (until_ e ds).Admitted c ↔ e.Admitted c ∧
    ListAdmitted (e.after c).enter ds ∧ e.size + blockSize ds + 7 ≤ maxDistance := by
  rw [admits_until hp, true_imp_iff]

theorem admitted_ifElse {e : Expr} {ds es : List Decl} : (ifElse e ds es).Admitted c ↔ e.Admitted c ∧
    ListAdmitted (e.after c).enter ds ∧ blockSize ds + 4 ≤ maxDistance ∧
      ListAdmitted ((e.after c).afterBlock ds).enter es ∧ blockSize es + 1 ≤ maxDistance := by
  rw [admits_ifElse hp, true_imp_iff, true_imp_iff]

theorem admitted_out_some {e : Expr} :
    (out (some e)).Admitted c strict ↔ c.scope.inFunction = true ∧ e.Admitted c strict := by
  rw [admitted_of_none hp, admitted_iff]
  simp [and_assoc]

omit hp in
theorem admitted_out_none (hc : c.Room 0) :
    (out none).Admitted c strict ↔ c.scope.inFunction = true := by
  simp [admitted_iff, hc]

omit hp in
theorem admitted_block {mark : BlockMark} {ds : List Decl} :
    (block mark ds).Admitted c strict ↔ ListAdmitted c.enter ds strict := by
  rw [listAdmitted_enter, admitted_iff]
  simp
  tauto

end Forms

theorem admits_iff {σ : Scope} (hlive : σ.live ≤ maxLocals) {x : String} : σ.Admits x ↔
    (σ.declare x).live ≤ maxLocals ∧ (σ.isLocal = true → x ∉ σ.inner) := by
  cases hl : σ.isLocal with
  | true =>
    rw [Scope.Admits, hl]
    exact ⟨fun h => ⟨(h rfl).2, fun _ => (h rfl).1⟩, fun h _ => ⟨h.2 rfl, h.1⟩⟩
  | false =>
    rw [Scope.Admits, hl, Scope.declare_of_global hl]
    refine iff_of_true ?_ ⟨hlive, ?_⟩
    all_goals
      intro hg
      cases hg

section Names
variable (hlive : c.scope.live ≤ maxLocals)
include hlive

theorem admitted_var_none {x : String} : (var x none).Admitted c strict ↔
    c.scope.Admits x ∧ c.Room (nameNeeds c.scope x) := by
  rw [admits_iff hlive, admitted_iff]
  simp [and_assoc]

theorem admitted_var_some {x : String} {e : Expr} : (var x (some e)).Admitted c strict ↔
    (c.scope.Admits x ∧ c.Room (nameNeeds c.scope x)) ∧
      e.Admitted ((c.announce x).add (nameNeeds c.scope x)) strict := by
  rw [admits_iff hlive, admitted_iff, Expr.Admitted, Context.Admits]
  have hpending : (∀ y, ((c.announce x).add (nameNeeds c.scope x)).pending = some y → y ∉ e.mentions) ↔
      (c.scope.isLocal = true → x ∉ e.mentions) := by
    cases hl : c.scope.isLocal <;> simp [Context.announce, hl]
  have hroom : c.Room (needs c.scope (var x (some e))) ↔ c.Room (nameNeeds c.scope x) ∧
      ((c.announce x).add (nameNeeds c.scope x)).Room (e.needs c.scope.names) := Context.room_add.symm
  rw [hpending, hroom]
  simp
  tauto

omit hlive in
theorem listAdmitted_inside {xs : List String} {ds : List Decl} : ListAdmitted (c.inside xs) ds strict ↔
    ListEverywhere (Decl.Judged strict) (Expr.Judged strict) (.function xs) ds ∧ (xs ++ listDeclared ds).Nodup ∧
      (listNeeds (.function xs) ds).count ≤ Bytecode.maxConstants := by
  have hnodup : (listDeclared ds ++ xs.reverse).Nodup ↔ (xs ++ listDeclared ds).Nodup := by
    rw [((List.reverse_perm xs).append_left _).nodup_iff, List.nodup_append_comm]
  have hroom : (c.inside xs).Room (listNeeds (.function xs) ds) ↔
      (listNeeds (.function xs) ds).count ≤ Bytecode.maxConstants := by
    rw [Context.Room, Context.inside, Needs.zero_add]
  constructor
  · rintro ⟨h1, h2, h3⟩
    exact ⟨h1, hnodup.1 (h2 rfl), hroom.1 h3⟩
  · rintro ⟨h1, h2, h3⟩
    exact ⟨h1, fun _ => hnodup.2 h2, hroom.2 h3⟩

theorem admitted_fun {x : String} {xs : List String} {ds : List Decl} :
    (fun_ x xs ds).Admitted c strict ↔ (c.scope.Admits x ∧ c.Room (nameNeeds c.scope x)) ∧
      (xs.Nodup ∧ xs.length ≤ 255) ∧ ListAdmitted (c.inside xs) ds strict ∧
        (c.add (nameNeeds c.scope x)).Room .one := by
  have hroom : c.Room (needs c.scope (fun_ x xs ds)) ↔ c.Room (nameNeeds c.scope x) ∧
      (c.add (nameNeeds c.scope x)).Room .one := Context.room_add.symm
  have hlocals : (Scope.function xs).live ≤ maxLocals ↔ xs.length ≤ 255 := by
    rw [Scope.live_function, maxLocals, Nat.succ_le_succ_iff]
  have hnodup : (xs ++ listDeclared ds).Nodup → xs.Nodup := fun h => (List.nodup_append.1 h).1
  rw [admits_iff hlive, admitted_iff, hroom, listAdmitted_inside]
  simp [hlocals]
  tauto

end Names

end Decl
end StackScript
