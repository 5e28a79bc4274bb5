import StackScript.Proofs.Code.Primitives

/-! What looking up, declaring and dropping variables does. -/
namespace StackScript

theorem map_findLocal? (x : String) (vs : List Local) :
    (Draft.findLocal? x vs).map Prod.fst = slot? x (vs.map Local.name) := by
  induction vs with
  | nil => rfl
  | cons v older ih =>
    rw [Draft.findLocal?, List.map_cons, slot?, List.length_map]
    split
    · rfl
    · exact ih

theorem mem_of_findLocal? {x : String} {vs : List Local} {i : Nat} {v : Local}
    (h : Draft.findLocal? x vs = some (i, v)) : v ∈ vs := by
  induction vs with
  | nil => cases h
  | cons w older ih =>
    rw [Draft.findLocal?] at h
    split at h
    · obtain ⟨-, rfl⟩ := Prod.mk.inj (Option.some.inj h)
      exact List.mem_cons_self
    · exact List.mem_cons_of_mem _ (ih h)

/-- The variables of the innermost block are those in front that hold up to a test on depths which those
of the blocks around it fail. -/
theorem takeWhile_blockLocals {names : List String} {outer : List (List String)} {p : Local → Bool}
    (hin : ∀ x, p ⟨x, some outer.length⟩ = true)
    (hout : ∀ x d, d < outer.length → p ⟨x, some d⟩ = false) :
    (blockLocals (names :: outer)).takeWhile p = names.map (⟨·, some outer.length⟩) := by
  rw [blockLocals, List.takeWhile_append_of_pos (by simpa using fun x _ => hin x)]
  cases hb : blockLocals outer with
  | nil => simp
  | cons v vs =>
    obtain ⟨d, hd, hlt⟩ := depth_lt_of_mem_blockLocals (hb ▸ List.mem_cons_self : v ∈ blockLocals outer)
    obtain ⟨x, depth⟩ := v
    obtain rfl : depth = some d := hd
    rw [List.takeWhile_cons_of_neg (by simp [hout x d hlt]), List.append_nil]

namespace Scope

theorem isLocal_iff {σ : Scope} : σ.isLocal = true ↔ 0 < σ.outer.length := by
  cases h : σ.outer <;> simp [isLocal, h]

theorem locals_declare {σ : Scope} (h : σ.isLocal = true) (x : String) :
    (σ.declare x).locals = ⟨x, some σ.outer.length⟩ :: σ.locals := by
  simp [declare, h, locals, blockLocals]

/-- The variables of a block are those that leaving it drops. -/
theorem leaving_locals (σ : Scope) (names : List String) :
    Draft.leaving σ.outer.length (Scope.locals { σ.enter with inner := names }) = names.length := by
  rw [Draft.leaving, locals, takeWhile_blockLocals, List.length_map]
  · simp [enter]
  · intro x d hd
    simpa using Nat.le_of_lt_succ hd

/-- What is asked of a new local variable. -/
def Admits (σ : Scope) (x : String) : Prop :=
  σ.isLocal = true → x ∉ σ.inner ∧ (σ.declare x).live ≤ maxLocals

end Scope

theorem Draft.innermost_eq {d : Draft} {σ : Scope} (hl : d.locals = σ.locals) (hd : d.depth = σ.outer.length) :
    d.innermost = σ.inner.map (⟨·, some σ.outer.length⟩) := by
  rw [innermost, hl, hd]
  refine takeWhile_blockLocals (fun x => ?_) fun x d hd => ?_
  · simp
  · simpa using hd

theorem Draft.declares_eq {d : Draft} {σ : Scope} (hl : d.locals = σ.locals) (hd : d.depth = σ.outer.length)
    (x : String) :
    d.declares x = decide (x ∈ σ.inner) := by
  rw [declares, innermost_eq hl hd, Bool.eq_iff_iff]
  simp

namespace Compiler

/-! ### Local and global

Variables that are found, and those that are declared in a block, are local, and all others are global. -/

section Runs
variable {s : State} {x : String}

theorem run_accessTo_local {i : Nat} {v : Local} (h : Draft.findLocal? x s.draft.locals = some (i, v)) :
    (accessTo x).run s =
      (checkInitialized v >>= fun _ => pure (⟨.getLocal, .setLocal, i.toUInt8⟩ : Access)).run s := by
  simp only [accessTo, run_bind, run_get, h]

theorem run_accessTo_global (h : Draft.findLocal? x s.draft.locals = none) : (accessTo x).run s =
    (nameConstant x >>= fun i => pure (⟨.getGlobal, .setGlobal, i⟩ : Access)).run s := by
  simp only [accessTo, run_bind, run_get, h]

theorem run_checkNew (s : State) (x : String) : (checkNew x).run s =
    if s.draft.declares x = true then (mistake .variableRedeclaration).run s else ((), s) := by
  rw [checkNew, run_bind, run_get]
  split <;> rfl

theorem run_addLocal (s : State) (x : String) : (addLocal x).run s =
    if s.draft.locals.length = maxLocals then (mistake .tooManyLocals).run s
    else ((), { s with draft := { s.draft with locals := ⟨x, none⟩ :: s.draft.locals } }) := by
  rw [addLocal, run_bind, run_get]
  split <;> rfl

theorem run_declareLocal_local (h : 0 < s.draft.depth) :
    (declareLocal x).run s = (checkNew x >>= fun _ => addLocal x).run s := by
  rw [declareLocal, run_bind, run_get, if_pos h]

theorem run_declareLocal_global (h : ¬0 < s.draft.depth) : (declareLocal x).run s = ((), s) := by
  rw [declareLocal, run_bind, run_get, if_neg h, run_pure]

theorem run_settleVariable_local {i : UInt8} (h : 0 < s.draft.depth) :
    (settleVariable i).run s = bringInScope.run s := by
  rw [settleVariable, run_bind, run_get, if_pos h]

theorem run_settleVariable_global {i : UInt8} (h : ¬0 < s.draft.depth) :
    (settleVariable i).run s = (emitWith .defineGlobal i).run s := by
  rw [settleVariable, run_bind, run_get, if_neg h]

end Runs

section Variables
variable {c : Context} {s : State} (h : Describes c s)
include h

/-! ### Looking up -/

omit h in
theorem findLocal?_pending {x : String} (hx : c.pending ≠ some x) :
    Draft.findLocal? x c.locals = Draft.findLocal? x c.scope.locals := by
  cases hp : c.pending with
  | none => simp [Context.locals, hp]
  | some y =>
    have hy : y ≠ x := fun hy => hx (by rw [hp, hy])
    simp [Context.locals, hp, Draft.findLocal?, hy]

/-- Access to a variable by its home. -/
structure Reaches (κ : Pool) (names : List String) (x : String) (a : Access) (p : Home) : Prop where
  finds : κ.Finds names x p
  get : p.get = ⟨a.get, a.operand.toNat⟩
  set : p.set = ⟨a.set, a.operand.toNat⟩

omit h in
theorem Reaches.width {κ : Pool} {names : List String} {x : String} {a : Access} {p : Home}
    (hr : Reaches κ names x a p) : a.get.width = 1 ∧ a.set.width = 1 := by
  obtain ⟨get, set, operand⟩ := a
  have hget := hr.get
  have hset := hr.set
  cases p <;> cases hget <;> cases hset <;> exact ⟨rfl, rfl⟩

theorem effect_accessTo (x : String) :
    Effect (c.pending ≠ some x ∧ c.Room (.name c.scope.names x)) (accessTo x) s fun a t =>
      Emits (c.add (.name c.scope.names x)) [] s t ∧ ∃ p, Reaches t.pool c.scope.names x a p := by
  by_cases hx : c.pending = some x
  · have hl : Draft.findLocal? x s.draft.locals = some (c.scope.locals.length, ⟨x, none⟩) := by
      rw [h.locals, Context.locals, hx]
      simp [Draft.findLocal?]
    refine ⟨iff_of_false (fun hf => hf ?_) fun k => k.1 hx, fun k => absurd hx k.1⟩
    rw [run_accessTo_local hl]
    exact failed_mistake (.inl h.ready) _
  · rw [← ne_eq] at hx
    have hfind : Draft.findLocal? x s.draft.locals = Draft.findLocal? x c.scope.locals := by
      rw [h.locals, findLocal?_pending hx]
    have hslot : (Draft.findLocal? x c.scope.locals).map Prod.fst = slot? x c.scope.names := by
      rw [map_findLocal?, Scope.locals, names_blockLocals]
      rfl
    cases hl : Draft.findLocal? x c.scope.locals with
    | some iv =>
      obtain ⟨i, v⟩ := iv
      rw [hl] at hslot hfind
      obtain ⟨d, hd, -⟩ := depth_lt_of_mem_blockLocals (mem_of_findLocal? hl)
      have hi : i < 256 := Nat.lt_of_lt_of_le (slot?_lt hslot.symm) h.live_le
      have hmem : x ∈ c.scope.names := by
        by_contra hn
        rw [slot?_eq_none.2 hn] at hslot
        cases hslot
      rw [Needs.name, if_pos hmem, Context.add_zero]
      have hrun : (accessTo x).run s = (⟨.getLocal, .setLocal, i.toUInt8⟩, s) := by
        rw [run_accessTo_local hfind, checkInitialized, hd]
        rfl
      have hroom : c.Room 0 := by
        rw [Context.Room, Needs.add_zero]
        exact h.pooled.room
      have hi' : i.toUInt8.toNat = i := UInt8.toNat_ofNat_of_lt' hi
      exact (Effect.of_run hrun h.not_failed ⟨⟨h, .refl s⟩, .slot i, hslot.symm, by rw [hi']; rfl,
        by rw [hi']; rfl⟩).congr (iff_of_true trivial ⟨hx, hroom⟩)
    | none =>
      rw [hl] at hslot hfind
      have hmem : x ∉ c.scope.names := slot?_eq_none.1 hslot.symm
      rw [Needs.name, if_neg hmem]
      refine .of_run_eq (t := s) (run_accessTo_global hfind) ?_
      refine ((effect_nameConstant h x).bindTrue ?_).congr (and_iff_right hx).symm
      rintro i t ⟨ht, hi⟩
      exact .pure ht.describes.not_failed ⟨ht, .global i.toNat, ⟨hmem, hi⟩, rfl, rfl⟩

/-! ### Declaring -/

theorem effect_checkNew (hp : c.pending = none) (x : String) :
    Effect (x ∉ c.scope.inner) (checkNew x) s fun _ t => t = s := by
  have hd : s.draft.declares x = decide (x ∈ c.scope.inner) :=
    Draft.declares_eq (by rw [h.locals, Context.locals, hp]; rfl) h.depth x
  by_cases hx : x ∈ c.scope.inner
  · have hf : Failed ((mistake .variableRedeclaration).run s).2 := failed_mistake (.inl h.ready) _
    refine ⟨iff_of_false (fun hn => hn ?_) (· hx), fun k => absurd hx k⟩
    rw [run_checkNew, hd, if_pos (decide_eq_true hx)]
    exact hf
  · refine (Effect.of_run (x := ()) ?_ h.not_failed rfl).congr (iff_of_true trivial hx)
    rw [run_checkNew, hd, decide_eq_false hx, if_neg Bool.false_ne_true]

theorem effect_addLocal (hp : c.pending = none) (x : String) :
    Effect (c.scope.live + 1 ≤ maxLocals) (addLocal x) s fun _ t =>
      Emits { c with pending := some x } [] s t := by
  have hl : s.draft.locals.length = c.scope.live := by
    rw [h.locals, Context.locals, hp]
    simp
  have hle := h.live_le
  by_cases hroom : c.scope.live = maxLocals
  · have hf : Failed ((mistake .tooManyLocals).run s).2 := failed_mistake (.inl h.ready) _
    refine ⟨iff_of_false (fun hn => hn ?_) (by omega), fun k => absurd k (by omega)⟩
    rw [run_addLocal, hl, if_pos hroom]
    exact hf
  · refine (Effect.of_run (x := ()) (t := { s with draft := { s.draft with
      locals := ⟨x, none⟩ :: s.draft.locals } }) ?_ (fun hf => hf h.ready.errors)
      ⟨⟨⟨h.ready.1, h.ready.2⟩, h.faultless, h.defect, ?_, h.depth, h.isScript, ?_,
      ⟨h.pooled.size, h.pooled.room, h.pooled.sound, h.pooled.named, h.pooled.known⟩, h.functions⟩,
      ⟨by simp, by simp, .refl _, rfl, rfl⟩⟩).congr (iff_of_true trivial (by omega))
    · rw [run_addLocal, hl, if_neg hroom]
    · simp [h.locals, Context.locals, hp]
    · simp [Context.locals]
      omega

/-- The variable that is being declared is local, but not in scope yet; global names are never pending. -/
def Context.announce (c : Context) (x : String) : Context :=
  { c with pending := if c.scope.isLocal then some x else none }

/-- A new variable is in scope. -/
def Context.declare (c : Context) (x : String) : Context :=
  { c with scope := c.scope.declare x, pending := none }

theorem depth_pos_iff : 0 < s.draft.depth ↔ c.scope.isLocal = true := by
  rw [h.depth, Scope.isLocal_iff]

theorem effect_declareLocal (hp : c.pending = none) (x : String) :
    Effect (c.scope.Admits x) (declareLocal x) s fun _ t => Emits (c.announce x) [] s t := by
  by_cases hl : c.scope.isLocal = true
  · have hiff : c.scope.Admits x ↔ x ∉ c.scope.inner ∧ c.scope.live + 1 ≤ maxLocals := by
      simp [Scope.Admits, hl, Scope.live_declare]
    refine .of_run_eq (t := s) (run_declareLocal_local ((depth_pos_iff h).2 hl))
      (((effect_checkNew h hp x).bind ?_).congr hiff.symm)
    rintro _ _ rfl
    simpa [Context.announce, hl] using effect_addLocal h hp x
  · have hc : c.announce x = c := by
      rw [Context.announce, if_neg hl, ← hp]
    rw [hc]
    exact (Effect.of_run (run_declareLocal_global (mt (depth_pos_iff h).1 hl)) h.not_failed ⟨h, .refl s⟩).congr
      (iff_of_true trivial fun k => absurd k hl)

omit h in
@[simp] theorem scope_announce (c : Context) (x : String) : (c.announce x).scope = c.scope := rfl

/-- Reading a new name declares it. -/
theorem effect_writeNewName (hp : c.pending = none) (x : String) :
    Effect (c.scope.Admits x ∧ c.Room (Decl.nameNeeds c.scope x)) (Decl.writeNewName x) s fun i t =>
      Emits ((c.announce x).add (Decl.nameNeeds c.scope x)) [] s t ∧
        (c.scope.isLocal = false → t.pool.IsName i.toNat x) := by
  refine (effect_advance h).andThen fun _ t ht => (effect_declareLocal ht.describes hp x).bind
    fun _ u hu => ?_
  have hd := hu.describes
  have hiff := depth_pos_iff hd
  rw [scope_announce] at hiff
  cases hl : c.scope.isLocal with
  | true =>
    have hroom : c.Room 0 := by
      rw [Context.Room, Needs.add_zero]
      exact h.pooled.room
    rw [Decl.nameNeeds, hl, if_pos rfl, Context.add_zero]
    refine (Effect.of_run (x := 0) (t := u) ?_ hd.not_failed ⟨ht.trans hu, ?_⟩).congr
      (iff_of_true trivial hroom)
    · rw [run_bind, run_get, if_pos (hiff.2 hl), run_pure]
    · intro hg
      cases hg
  | false =>
    rw [Decl.nameNeeds, hl, if_neg Bool.false_ne_true]
    refine .of_run_eq (t := u) ?_ ((effect_nameConstant hd x).mono ?_)
    · rw [run_bind, run_get, if_neg (by rw [hiff, hl]; decide)]
    · rintro i v - ⟨hv, hi⟩
      exact ⟨ht.trans (hu.trans hv), fun _ => hi⟩

theorem run_bringInScope_local (hl : c.scope.isLocal = true) :
    bringInScope.run s = ((), { s with draft := s.draft.bringInScope }) := by
  rw [bringInScope, run_modify, if_pos ((depth_pos_iff h).2 hl)]

theorem run_bringInScope_global (hl : c.scope.isLocal = false) : bringInScope.run s = ((), s) := by
  rw [bringInScope, run_modify, if_neg]
  rw [depth_pos_iff h, hl]
  decide

/-- The variable that is being declared comes into scope. -/
theorem effect_bringInScope {x : String} (hp : c.pending = (c.announce x).pending) :
    Effect True bringInScope s fun _ t => Emits (c.declare x) [] s t := by
  cases hl : c.scope.isLocal with
  | false =>
    have hc : c.declare x = c := by
      rw [Context.declare, Scope.declare_of_global hl, ← (by simpa [Context.announce, hl] using hp : c.pending = none)]
    rw [hc]
    exact .of_run (run_bringInScope_global h hl) h.not_failed ⟨h, .refl s⟩
  | true =>
    have hx : c.pending = some x := by simpa [Context.announce, hl] using hp
    have hlocals : s.draft.locals = ⟨x, none⟩ :: c.scope.locals := by
      rw [h.locals, Context.locals, hx]
      rfl
    have hb : s.draft.bringInScope = { s.draft with
        locals := ⟨x, some s.draft.depth⟩ :: c.scope.locals } := by
      rw [Draft.bringInScope, hlocals]
    have hlive := h.live
    rw [← h.locals, hlocals] at hlive
    refine .of_run (run_bringInScope_local h hl) (fun hf => hf h.ready.errors) ?_
    rw [hb]
    refine ⟨⟨⟨h.ready.1, h.ready.2⟩, h.faultless, h.defect, ?_, ?_, ?_, ?_,
      ⟨h.pooled.size, h.pooled.room, h.pooled.sound, h.pooled.named, h.pooled.known⟩, h.functions⟩,
      ⟨by simp, by simp, .refl _, rfl, rfl⟩⟩
    · simp [Context.declare, Context.locals, Scope.locals_declare hl, h.depth]
    · simpa [Context.declare] using h.depth
    · simpa [Context.declare, Draft.isScript] using h.isScript
    · simpa [Context.declare, Context.locals, Scope.locals_declare hl] using hlive

/-- A variable that is in scope already stays there. -/
theorem effect_bringInScope_again {σ : Scope} {x : String} (hσ : c.scope = σ.declare x)
    (hp : c.pending = none) : Effect True bringInScope s fun _ t => Emits c [] s t := by
  cases hl : c.scope.isLocal with
  | false => exact .of_run (run_bringInScope_global h hl) h.not_failed ⟨h, .refl s⟩
  | true =>
    have hd : s.draft.depth = σ.outer.length := by rw [h.depth, hσ, Scope.outer_declare]
    have hlocals : s.draft.locals = ⟨x, some s.draft.depth⟩ :: σ.locals := by
      rw [h.locals, Context.locals, hp, hd, hσ, Scope.locals_declare]
      · rfl
      · rwa [hσ, Scope.isLocal_declare] at hl
    have hb : s.draft.bringInScope = s.draft := by
      rw [Draft.bringInScope, hlocals]
      simp only [← hlocals]
    refine .of_run (run_bringInScope_local h hl) (fun hf => hf h.ready.errors) ?_
    rw [hb]
    exact ⟨h, .refl s⟩

/-- A variable gets its value once it comes into scope. -/
theorem effect_settleVariable {d : Context} {i : UInt8} {x : String}
    (hb : Effect True bringInScope s fun _ t => Emits d [] s t)
    (hi : c.scope.isLocal = false → s.pool.IsName i.toNat x) :
    Effect True (settleVariable i) s fun _ t =>
      Yields d (fun κ is => κ.Settles c.scope.isLocal x is) s t := by
  cases hl : c.scope.isLocal with
  | true =>
    exact .of_run_eq (t := s) (run_settleVariable_local ((depth_pos_iff h).2 hl))
      (hb.mono fun _ t _ ht => ⟨[], ht, rfl⟩)
  | false =>
    have hd := hb.result trivial
    rw [run_bringInScope_global h hl] at hd
    have hdepth : ¬0 < s.draft.depth := by simp [depth_pos_iff h, hl]
    exact .of_run_eq (t := s) (run_settleVariable_global hdepth)
      ((effect_emitWith hd.describes rfl i).mono fun _ t _ ht =>
      ⟨_, ht, i.toNat, (hi hl).mono ht.wrote.pool, rfl⟩)

/-! ### Blocks -/

/-- In a new block. -/
def Context.enter (c : Context) : Context := { c with scope := c.scope.enter }

theorem effect_enterScope (hp : c.pending = none) :
    Effect True enterScope s fun _ t => Emits c.enter [] s t := by
  refine .of_run rfl (fun hf => hf h.ready.errors) ⟨⟨⟨h.ready.1, h.ready.2⟩, h.faultless, h.defect,
    ?_, ?_, h.isScript, ?_,
    ⟨h.pooled.size, h.pooled.room, h.pooled.sound, h.pooled.named, h.pooled.known⟩, h.functions⟩,
    ⟨by simp, by simp, .refl _, rfl, rfl⟩⟩
  · simp [h.locals, Context.locals, Context.enter, hp, Scope.locals, Scope.enter, blockLocals]
  · simp [h.depth, Context.enter, Scope.enter]
  · simpa [Context.locals, Context.enter] using h.live

theorem effect_emitPops (n : Nat) :
    Effect True (emitPops n) s fun _ t => Emits c (Decl.pops n) s t := by
  induction n generalizing s with
  | zero => exact .pure h.not_failed ⟨h, .refl s⟩
  | succ n ih =>
    exact (effect_emit h rfl).andThen fun _ _ ht => (ih ht.describes).mono fun _ _ _ hu => ht.trans hu

/-- Leaving a block takes its variables out of scope first. -/
theorem run_leaveScope_block (names : List String) {σ : Scope} (hp : c.pending = none)
    (hσ : c.scope = { σ.enter with inner := names }) :
    Describes { c with scope := σ } { s with draft := { s.draft with
        depth := s.draft.depth - 1, locals := s.draft.locals.drop names.length } } ∧
      leaveScope.run s = (emitPops names.length).run { s with draft := { s.draft with
        depth := s.draft.depth - 1, locals := s.draft.locals.drop names.length } } := by
  have hdepth : s.draft.depth = σ.outer.length + 1 := by
    rw [h.depth, hσ]
    rfl
  have hlocals : s.draft.locals = names.map (⟨·, some (σ.outer.length + 1)⟩) ++ σ.locals := by
    rw [h.locals, Context.locals, hp, hσ]
    rfl
  have hdrop : Draft.leaving (s.draft.depth - 1) s.draft.locals = names.length := by
    rw [hdepth, hlocals]
    exact σ.leaving_locals names
  constructor
  · refine ⟨⟨h.ready.1, h.ready.2⟩, h.faultless, h.defect, ?_, ?_, ?_, ?_,
      ⟨h.pooled.size, h.pooled.room, h.pooled.sound, h.pooled.named, h.pooled.known⟩, h.functions⟩
    · simp [hlocals, Context.locals, hp, List.drop_left']
    · simp [hdepth]
    · have hs := h.isScript
      rw [hσ] at hs
      exact hs
    · have hl := h.live
      rw [← h.locals, hlocals] at hl
      simp only [List.length_append, Scope.length_locals] at hl
      simp only [Context.locals, hp, Option.map_none, Option.toList_none, List.nil_append,
        Scope.length_locals]
      omega
  · rw [leaveScope, run_bind, run_get, run_bind, run_ensure (decide_eq_true (by rw [hdepth]; omega)),
      run_bind, run_modify, hdrop]

/-- Leaving a block drops its variables. -/
theorem effect_leaveScope (names : List String) {σ : Scope} (hp : c.pending = none)
    (hσ : c.scope = { σ.enter with inner := names }) :
    Effect True leaveScope s fun _ t =>
      Emits { c with scope := σ } (Decl.pops names.length) s t := by
  obtain ⟨hd, hrun⟩ := run_leaveScope_block h names hp hσ
  refine .of_run_eq hrun ((effect_emitPops hd names.length).mono fun _ t _ ht => ⟨ht.describes, ?_⟩)
  exact ⟨ht.wrote.code, ht.wrote.fits, ht.wrote.pool, ht.wrote.name, ht.wrote.arity⟩

end Variables

end Compiler
end StackScript
