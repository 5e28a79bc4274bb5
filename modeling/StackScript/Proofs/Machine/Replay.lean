import StackScript.Proofs.Compiler.Twice
import StackScript.Proofs.Machine.History
import StackScript.Proofs.Machine.Lockstep

/-! Runs of machines that are alike go alike. A machine at rest is like itself, and it stays like any machine that has
only taken in more strings and functions. -/
namespace StackScript
open Pairing

namespace Machine
variable {p : Pairing} {m n : Machine}

/-! ### Runs of machines that are alike -/

theorem trace_eq (hp : p.lines) (h : AlikeMachines p m n) : m.trace = n.trace := by
  have hframes := h.frames
  unfold trace
  generalize m.frames = fs at hframes ⊢
  generalize n.frames = gs at hframes ⊢
  induction hframes with
  | nil => rfl
  | @cons f g fs gs hfg _ ih =>
    have hname := hfg.function.name
    have htext : f.function.name.bind m.store.text? = g.function.name.bind n.store.text? := by
      generalize f.function.name = x at hname ⊢
      generalize g.function.name = y at hname ⊢
      cases hname with
      | some hab => exact text?_eq hab
      | none => rfl
    rw [List.map_cons, List.map_cons, ih, htext, Bytecode.lineAt, Bytecode.lineAt, hfg.function.bytecode.lines hp,
      hfg.ip]

theorem abandon_alike (hp : p.lines) (h : AlikeMachines p m n) (e : RuntimeError) :
    (m.abandon e).1 = (n.abandon e).1 ∧ AlikeMachines p (m.abandon e).2 (n.abandon e).2 := by
  have hconsole := (isBlind_flush.eq h.console).2
  exact ⟨congrArg (fun trace => Outcome.failure (.failed e trace)) (trace_eq hp h),
    ((h.with_stack .empty).with_frames .nil).with_console hconsole⟩

theorem conclude_alike (hp : p.lines) (h : AlikeMachines p m n) (halt : Halt) :
    (m.conclude halt).1 = (n.conclude halt).1 ∧ AlikeMachines p (m.conclude halt).2 (n.conclude halt).2 := by
  cases halt with
  | finished =>
    obtain ⟨hresult, hconsole⟩ := isBlind_flush.eq h.console
    simp only [conclude]
    generalize m.console.flush = x at hresult hconsole ⊢
    generalize n.console.flush = y at hresult hconsole ⊢
    obtain ⟨x, c⟩ := x
    obtain ⟨y, d⟩ := y
    obtain rfl : x = y := hresult
    cases x with
    | ok _ => exact ⟨rfl, h.with_console hconsole⟩
    | error e => exact abandon_alike hp (h.with_console hconsole) _
  | failed e => exact abandon_alike hp h e
  | stuck r => exact ⟨rfl, h⟩

theorem runFor_alike (hp : p.lines) (h : AlikeMachines p m n) (steps : Nat) :
    Option.Rel (fun x y => x.1 = y.1 ∧ AlikeMachines p x.2 y.2) (runFor steps m) (runFor steps n) := by
  induction steps generalizing m n with
  | zero => exact .none
  | succ steps ih =>
    have hcycle := agree_cycle hp h
    rw [runFor, runFor]
    generalize cycle.run m = x at hcycle ⊢
    generalize cycle.run n = y at hcycle ⊢
    cases hcycle with
    | ok alike => exact ih alike
    | error alike => exact .some ⟨rfl, alike⟩

theorem after_alike (hp : p.lines) (h : AlikeMachines p m n) (steps : Nat) :
    Option.Rel (AlikeMachines p) (after steps m) (after steps n) := by
  induction steps generalizing m n with
  | zero => exact .some h
  | succ steps ih =>
    have hcycle := agree_cycle hp h
    rw [after, after]
    generalize cycle.run m = x at hcycle ⊢
    generalize cycle.run n = y at hcycle ⊢
    cases hcycle with
    | ok alike => exact ih alike
    | error alike => exact .none

theorem agree_enter (h : AlikeMachines p m n) {f g : FunctionRef} (hfg : p.pairs f g) :
    Agree p Any m n ((enter f).run m) ((enter g).run n) :=
  (agree_push h (.function hfg)).bind fun h _ _ _ =>
    (agree_orStuck h _ (h.store.functions hfg)).bind fun h _ _ hfg => agree_callFunction h hfg 0

/-- What starting a source on machines that are alike comes to. -/
inductive AlikeStarts (p : Pairing) : Except (Outcome × Machine) Machine → Except (Outcome × Machine) Machine → Prop
  | early {outcome : Outcome} {m n : Machine} (h : AlikeMachines p m n) :
      AlikeStarts p (.error (outcome, m)) (.error (outcome, n))
  | running {m n : Machine} (h : AlikeMachines p m n) : AlikeStarts p (.ok m) (.ok n)

theorem start_alike (hp : p.lines) (h : AlikeMachines p m n) (source : String) :
    AlikeStarts p (m.start source) (n.start source) := by
  have : Fact p.lines := ⟨hp⟩
  obtain ⟨hresult, hstore⟩ := Compiler.compile_alike h.store source m.config.printCode
  have haccept : AlikeMachines p (m.accept (compile source m.store m.config.printCode))
      (n.accept (compile source n.store m.config.printCode)) :=
    (h.with_store (compile_extends _ _ _) (compile_extends _ _ _) (natives_compile _ _ _) hstore).with_console h.console
  unfold start
  simp only [defect_compile, ← h.config]
  generalize (compile source m.store m.config.printCode).result = x at hresult ⊢
  generalize (compile source n.store m.config.printCode).result = y at hresult ⊢
  cases hresult with
  | error errors => exact .early haccept
  | @ok f g hfg =>
    have henter := agree_enter haccept hfg
    dsimp only
    generalize (enter f).run (m.accept (compile source m.store m.config.printCode)) = x at henter ⊢
    generalize (enter g).run (n.accept (compile source n.store m.config.printCode)) = y at henter ⊢
    cases henter with
    | ok alike => exact .running alike
    | @error halt m' n' alike =>
      obtain ⟨houtcome, hafter⟩ := conclude_alike hp alike halt
      dsimp only
      generalize m'.conclude halt = x at houtcome hafter ⊢
      generalize n'.conclude halt = y at houtcome hafter ⊢
      obtain ⟨x, m'⟩ := x
      obtain ⟨y, n'⟩ := y
      obtain rfl : x = y := houtcome
      exact .early hafter

theorem interpret_alike (hp : p.lines) (h : AlikeMachines p m n) (steps : Nat) (source : String) :
    Option.Rel (fun x y => x.1 = y.1 ∧ AlikeMachines p x.2 y.2) (m.interpret steps source)
      (n.interpret steps source) := by
  have hstart := start_alike hp h source
  unfold interpret
  generalize m.start source = x at hstart ⊢
  generalize n.start source = y at hstart ⊢
  cases hstart with
  | early alike => exact .some ⟨rfl, alike⟩
  | @running m' n' alike =>
    have hrun := runFor_alike hp alike steps
    dsimp only
    generalize runFor steps m' = x at hrun ⊢
    generalize runFor steps n' = y at hrun ⊢
    cases hrun with
    | none => exact .none
    | @some x y hxy =>
      obtain ⟨halt, m'⟩ := x
      obtain ⟨halt', n'⟩ := y
      obtain ⟨rfl, halike⟩ := hxy
      exact .some (conclude_alike hp halike halt)

theorem reached_alike (hp : p.lines) (h : AlikeMachines p m n) (source : String) (steps : Nat) :
    Option.Rel (AlikeMachines p) (m.reached source steps) (n.reached source steps) := by
  have hstart := start_alike hp h source
  unfold reached
  generalize m.start source = x at hstart ⊢
  generalize n.start source = y at hstart ⊢
  cases hstart with
  | early => exact .none
  | running alike => exact after_alike hp alike steps

end Machine

/-! ### Other functions that take each other's place -/

namespace Pairing
variable {p : Pairing} {s t : Store}

/-- Functions that take their own place. -/
def same : Pairing where
  pairs := Eq
  unique := by
    rintro f _ f' _ rfl rfl
    exact Iff.rfl
  lines := True

/-- The functions at hand take each other's place as before, and so do those that come next in the two stores. -/
def onward (p : Pairing) (s t : Store)
    (known : ∀ {f g}, p.pairs f g → s.Sound (.function f) →
      Option.Rel (p.AlikeFunctions s t) (s.function? f) (t.function? g)) : Pairing where
  pairs f g := (p.pairs f g ∧ s.Sound (.function f)) ∨
    ∃ i, f = ⟨s.functions.size + i⟩ ∧ g = ⟨t.functions.size + i⟩
  unique := by
    have hold {f g : FunctionRef} (hfg : p.pairs f g) (hf : s.Sound (.function f)) :
        f.index < s.functions.size ∧ g.index < t.functions.size := by
      have hrel := AlikeArrays.isSome_eq (known hfg hf)
      have hsome : (s.function? f).isSome := by
        cases hf with
        | function hr => exact Option.isSome_of_eq_some hr
      have hsome' := hrel.symm.trans hsome
      obtain ⟨_, hs⟩ := Option.isSome_iff_exists.1 hsome
      obtain ⟨_, ht⟩ := Option.isSome_iff_exists.1 hsome'
      exact ⟨(Array.getElem?_eq_some_iff.1 hs).1, (Array.getElem?_eq_some_iff.1 ht).1⟩
    rintro f g f' g' (⟨hfg, hf⟩ | ⟨i, rfl, rfl⟩) (⟨hfg', hf'⟩ | ⟨j, rfl, rfl⟩)
    · exact p.unique hfg hfg'
    · obtain ⟨hs, ht⟩ := hold hfg hf
      exact ⟨fun heq => absurd (heq ▸ hs) (Nat.not_lt.2 (Nat.le_add_right _ j)),
        fun heq => absurd (heq ▸ ht) (Nat.not_lt.2 (Nat.le_add_right _ j))⟩
    · obtain ⟨hs, ht⟩ := hold hfg' hf'
      exact ⟨fun heq => absurd (heq ▸ hs) (Nat.not_lt.2 (Nat.le_add_right _ i)),
        fun heq => absurd (heq ▸ ht) (Nat.not_lt.2 (Nat.le_add_right _ i))⟩
    · simp
  lines := True

variable {known : ∀ {f g}, p.pairs f g → s.Sound (.function f) →
  Option.Rel (p.AlikeFunctions s t) (s.function? f) (t.function? g)}

theorem Alike.onward {v w : Value} (h : p.Alike s t v w) (hv : s.Sound v) :
    (p.onward s t known).Alike s t v w := by
  cases h with
  | null => exact .null
  | bool b => exact .bool b
  | number x => exact .number x
  | char b => exact .char b
  | string hab => exact .string hab
  | function hfg => exact .function (.inl ⟨hfg, hv⟩)
  | native r => exact .native r

theorem forall₂_sound {xs ys : List Value} (h : List.Forall₂ (p.Alike s t) xs ys) (hs : ∀ v ∈ xs, s.Sound v) :
    List.Forall₂ ((p.onward s t known).Alike s t) xs ys := by
  induction h with
  | nil => exact .nil
  | cons hvw _ ih =>
    exact .cons (hvw.onward (hs _ List.mem_cons_self))
      (ih fun v hv => hs v (List.mem_cons_of_mem _ hv))

/-- What follows from functions at hand only holds functions at hand. -/
theorem alikeStores_onward (hp : p.lines) (hn : s.natives = t.natives) : (p.onward s t known).AlikeStores s t where
  natives := hn
  functions := by
    rintro f g (⟨hfg, hf⟩ | ⟨i, rfl, rfl⟩)
    · have hrel := known hfg hf
      cases hf with
      | @function _ f' _ hr _ hc =>
        rw [hr] at hrel ⊢
        generalize t.function? g = y at hrel ⊢
        cases hrel with
        | some halike =>
          have hcode : (p.onward s t known).AlikeCode s t f'.bytecode _ :=
            ⟨halike.bytecode.code, forall₂_sound halike.bytecode.constants fun v hv => hc v (Array.mem_toList_iff.1 hv),
              fun _ => halike.bytecode.lines hp⟩
          exact .some ⟨halike.name, halike.arity, hcode⟩
    · have hs : s.function? ⟨s.functions.size + i⟩ = none := Array.getElem?_eq_none (Nat.le_add_right _ _)
      have ht : t.function? ⟨t.functions.size + i⟩ = none := Array.getElem?_eq_none (Nat.le_add_right _ _)
      rw [hs, ht]
      exact .none
  next i := .inr ⟨i, rfl, rfl⟩

end Pairing

namespace Machine
variable {p : Pairing} {m n : Machine}

/-- Machines at rest are alike if their functions and global variables are. -/
theorem alike_resting (hp : p.lines) (hm : m.Resting) (hn : n.Resting) (config : m.config = n.config)
    (natives : m.store.natives = n.store.natives) (uniform : ∀ f ∈ m.store.natives, IsUniform f.call)
    (functions : ∀ {f g}, p.pairs f g → m.store.Sound (.function f) →
      Option.Rel (p.AlikeFunctions m.store n.store) (m.store.function? f) (n.store.function? g))
    (globals : ∀ x, Option.Rel (p.Alike m.store n.store) (m.global? x) (n.global? x))
    (console : m.console.visible = n.console.visible) : ∃ q : Pairing, q.lines ∧ AlikeMachines q m n := by
  refine ⟨p.onward m.store n.store functions, trivial, config, alikeStores_onward hp natives, uniform, fun x => ?_,
    hm.sound.names, hn.sound.names, ?_, ?_, console⟩
  · have hglobal := globals x
    generalize hx : m.global? x = v at hglobal ⊢
    generalize n.global? x = w at hglobal ⊢
    cases hglobal with
    | none => exact .none
    | some hvw =>
      obtain ⟨a, -, ha⟩ := Option.bind_eq_some_iff.1 hx
      exact .some (hvw.onward (hm.sound.globals ha))
  · rw [hm.stack, hn.stack]
    exact .empty
  · rw [hm.frames, hn.frames]
    exact .nil

theorem alike_refl {s : Store} {v : Value} (h : s.Sound v) : same.Alike s s v v := by
  cases h with
  | null => exact .null
  | bool b => exact .bool b
  | number x => exact .number x
  | char b => exact .char b
  | string ha =>
    obtain ⟨x, hx⟩ := Option.isSome_iff_exists.1 ha
    exact .string ⟨x, hx, hx⟩
  | native _ => exact .native _
  | function _ => exact .function rfl

theorem forall₂_refl {s : Store} {vs : List Value} (h : ∀ v ∈ vs, s.Sound v) : List.Forall₂ (same.Alike s s) vs vs := by
  induction vs with
  | nil => exact .nil
  | cons v vs ih => exact .cons (alike_refl (h v List.mem_cons_self)) (ih fun w hw => h w (List.mem_cons_of_mem _ hw))

/-- A machine at rest is like itself. -/
theorem Resting.alike_self (hm : m.Resting) (uniform : ∀ f ∈ m.store.natives, IsUniform f.call) :
    ∃ q : Pairing, q.lines ∧ AlikeMachines q m m := by
  refine alike_resting (p := same) trivial hm hm rfl rfl uniform (fun {f g} hfg hf => ?_) (fun x => ?_) rfl
  · obtain rfl := hfg
    cases hf with
    | @function _ f' _ hr ht hc =>
      rw [hr]
      refine .some ⟨?_, rfl, rfl, forall₂_refl fun v hv => hc v (Array.mem_toList_iff.1 hv), fun _ => rfl⟩
      cases hname : f'.name with
      | none => exact .none
      | some a =>
        obtain ⟨x, hx⟩ := Option.isSome_iff_exists.1 (ht.named hname)
        exact .some ⟨x, hx, hx⟩
  · generalize hx : m.global? x = v
    cases v with
    | none => exact .none
    | some v =>
      obtain ⟨a, -, ha⟩ := Option.bind_eq_some_iff.1 hx
      exact .some (alike_refl (hm.sound.globals ha))

end Machine
end StackScript
