import StackScript.Proofs.Code.Admitted
import StackScript.Proofs.Code.Listing

/-! What compiling a function does: its parameters are the first variables in its scope, and when it ends
it becomes an object whose code is that of its tree. -/
namespace StackScript.Compiler
variable {c : Context} {s : State}

theorem effect_checkParameterCount (h : Describes c s) (count : Nat) :
    Effect (count + 1 ≤ 255) (checkParameterCount count) s fun _ t => t = s := by
  unfold checkParameterCount
  by_cases hc : 255 ≤ count
  · rw [if_pos hc]
    have hf : Failed ((mistakeAhead .tooManyParameters).run s).2 := failed_mistakeAhead (.inl h.ready) _
    exact ⟨iff_of_false (· hf) (by omega), fun k => absurd k (by omega)⟩
  · rw [if_neg hc]
    exact (Effect.pure (Q := fun _ t => t = s) h.not_failed rfl).congr (iff_of_true trivial (by omega))

theorem effect_writeParameter {xs : List String} (h : Describes (c.inside xs) s) (x : String) :
    Effect (x ∉ xs ∧ xs.length + 1 ≤ 255) (Decl.writeParameter xs.length x) s fun _ t =>
      Emits (c.inside (xs ++ [x])) [] s t := by
  have hiff : xs.length + 1 ≤ 255 ∧ (c.inside xs).scope.Admits x ∧
      (c.inside xs).Room (Decl.nameNeeds (c.inside xs).scope x) ↔ x ∉ xs ∧ xs.length + 1 ≤ 255 := by
    have hroom : (c.inside xs).Room (Decl.nameNeeds (.function xs) x) := room_zero h
    have hlive : ((Scope.function xs).declare x).live = xs.length + 2 := by
      rw [Scope.function_declare, Scope.live_function, List.length_append, List.length_singleton]
    simp only [Context.inside, Scope.Admits, Scope.isLocal_function, forall_const, hlive, maxLocals]
    simp only [Scope.function, List.mem_reverse]
    constructor
    · rintro ⟨hlen, ⟨hx, -⟩, -⟩
      exact ⟨hx, hlen⟩
    · rintro ⟨hx, hlen⟩
      exact ⟨hlen, ⟨hx, by omega⟩, hroom⟩
  refine Effect.congr ?_ hiff
  refine (effect_checkParameterCount h xs.length).bind ?_
  rintro _ t rfl
  refine (effect_writeNewName h rfl x).bindTrue ?_
  rintro i u ⟨hu, hi⟩
  refine (effect_settleVariable hu.describes (effect_bringInScope hu.describes (x := x) rfl) hi).mono ?_
  rintro _ v - ⟨is, hv, hs⟩
  obtain rfl : is = [] := hs
  have hend := hu.trans hv
  rwa [Context.declare, Context.scope_add, scope_announce, Context.inside, Scope.function_declare] at hend

theorem effect_writeParameters (xs ys : List String) (h : Describes (c.inside xs) s) (hn : xs.Nodup)
    (hle : xs.length ≤ 255) :
    Effect ((xs ++ ys).Nodup ∧ (xs ++ ys).length ≤ 255) (Decl.writeParameters xs.length ys) s
      fun n t => n = (xs ++ ys).length ∧ n ≤ 255 ∧ Emits (c.inside (xs ++ ys)) [] s t := by
  induction ys generalizing xs s with
  | nil =>
    rw [List.append_nil]
    exact (Effect.pure h.not_failed ⟨rfl, hle, h, .refl s⟩).congr (iff_of_true trivial ⟨hn, hle⟩)
  | cons y ys ih =>
    have hiff : (y ∉ xs ∧ xs.length + 1 ≤ 255) ∧
        (xs ++ [y] ++ ys).Nodup ∧ (xs ++ [y] ++ ys).length ≤ 255 ↔
          (xs ++ y :: ys).Nodup ∧ (xs ++ y :: ys).length ≤ 255 := by
      simp only [List.append_assoc, List.singleton_append]
      refine and_iff_right_of_imp fun ⟨hnodup, hlen⟩ => ⟨fun hy => ?_, ?_⟩
      · exact (List.nodup_append.1 hnodup).2.2 y hy y List.mem_cons_self rfl
      · simp only [List.length_append, List.length_cons] at hlen
        omega
    refine Effect.congr ?_ hiff
    refine ((effect_writeParameter h y).mono fun _ _ hp hq => And.intro hp hq).bind
      fun _ t ⟨⟨hy, hlen⟩, ht⟩ => (effect_readComma ht.describes ys).andThen fun _ u hu => ?_
    have hlength : (xs ++ [y]).length = xs.length + 1 := by simp
    have hnodup : (xs ++ [y]).Nodup := by
      rw [List.nodup_append_comm]
      exact List.nodup_cons.2 ⟨hy, hn⟩
    rw [← hlength]
    refine (ih (xs ++ [y]) hu.describes hnodup (hlength ▸ hlen)).mono fun n v _ ⟨hcount, hn', hv⟩ => ?_
    rw [List.append_assoc, List.singleton_append] at hcount hv
    exact ⟨hcount, hn', ht.trans (hu.trans hv)⟩

/-- A function has been begun in the place of another one: nothing but its parameters has been read. -/
structure Begun (c : Context) (x : String) (parameters : List String) (s t : State) : Prop where
  describes : Describes (c.inside parameters) t
  store : s.store.Extends t.store
  code : t.draft.bytecode.code.toList = []
  named : t.store.Names t.draft.toFunction (some x)
  arity : t.draft.arity.toNat = parameters.length

theorem effect_beginFunction (h : Describes c s) (a : Symbol) :
    Effect True (beginFunction a) s fun outer t => outer = s.draft ∧ t.store = s.store ∧ t.draft = { name := some a } ∧
      Describes { scope := ⟨[""], [], true⟩, functions := c.functions } t :=
  .of_run rfl (fun hf => hf h.ready.errors) ⟨rfl, rfl, rfl, ⟨h.ready.1, h.ready.2⟩, h.faultless, h.defect, rfl,
    rfl, rfl, show 1 ≤ 256 by decide, ⟨rfl, Nat.zero_le _, by simp, by simp, by simp⟩, h.functions⟩

theorem effect_setArity (h : Describes c s) (n : Nat) :
    Effect True (setArity n) s fun _ t =>
      t.draft = { s.draft with arity := (min n 255).toUInt8 } ∧ t.store = s.store ∧ Describes c t :=
  .of_run rfl (fun hf => hf h.ready.errors) ⟨rfl, rfl, ⟨h.ready.1, h.ready.2⟩, h.faultless, h.defect, h.locals, h.depth,
    h.isScript, h.live, ⟨h.pooled.size, h.pooled.room, h.pooled.sound, h.pooled.named, h.pooled.known⟩, h.functions⟩

set_option synthInstance.maxSize 512 in
theorem effect_writeHead (h : Describes c s) (x : String) (xs : List String) :
    Effect (xs.Nodup ∧ xs.length ≤ 255) (Decl.writeHead x xs) s fun outer t =>
      outer = s.draft ∧ Begun c x xs s t := by
  refine (effect_intern h x).andThen fun a t ⟨ht, ha, hdraft⟩ => (effect_beginFunction ht.describes a).andThen ?_
  rintro _ u ⟨rfl, hstore, hnew, hu⟩
  refine (effect_enterScope hu rfl).andThen fun _ v hv => (effect_advance hv.describes).andThen
    fun _ v' hv' => (effect_writeParameters (c := c) [] xs hv'.describes List.nodup_nil (by decide)).bindTrue
      fun n w ⟨hn, hle, hw⟩ => ?_
  rw [List.nil_append] at hn hw
  have harity : (min n 255).toUInt8.toNat = xs.length := by
    rw [Nat.min_eq_left hle, hn]
    exact UInt8.toNat_ofNat_of_lt' (hn ▸ Nat.lt_succ_of_le hle)
  have hwrote := hv.wrote.trans (hv'.wrote.trans hw.wrote)
  refine (effect_setArity hw.describes n).andThen fun _ w1 ⟨hdraft1, hstore1, hw1⟩ => (effect_advance hw1).andThen
    fun _ w2 hw2 => (effect_advance hw2.describes).andThen fun _ w3 hw3 =>
      .pure hw3.describes.not_failed ⟨hdraft, ?_⟩
  have hend := hw2.wrote.trans hw3.wrote
  have hstore' : t.store.Extends w3.store := by
    have h1 := hwrote.pool.store
    have h2 := hend.pool.store
    simp only [State.pool, hstore, hstore1] at h1 h2
    exact h1.trans h2
  refine ⟨hw3.describes, ht.wrote.pool.store.trans hstore', ?_, ?_, ?_⟩
  · rw [hend.code, hdraft1, hwrote.code, hnew]
    rfl
  · have hname : w3.draft.name = some a := by rw [hend.name, hdraft1, hwrote.name, hnew]
    simpa [Store.Names, Draft.toFunction, hname] using hstore'.text ha
  · rw [hend.arity, hdraft1]
    exact harity

/-! ### The end of a function -/

theorem effect_listFunction (h : Describes c s)
    (hl : (listing? s.store s.draft.toFunction).isSome) :
    Effect True listFunction s fun _ t => ∃ listing, t = { s with listing } := by
  by_cases hp : s.printCode ∧ s.errors.isEmpty
  · obtain ⟨text, htext⟩ := Option.isSome_iff_exists.1 hl
    refine .of_run (x := ()) (t := { s with listing := s.listing ++ text }) ?_
      (fun hf => hf h.ready.errors) ⟨_, rfl⟩
    rw [listFunction, run_bind, run_get, if_pos hp, run_bind, htext]
    rfl
  · refine .of_run (x := ()) (t := s) ?_ h.not_failed ⟨s.listing, rfl⟩
    rw [listFunction, run_bind, run_get, if_neg hp, run_pure]

theorem isSome_listing {f : Function} {store : Store} {name : Option String} {parameters : List String}
    {is : List Instr} (hc : f.Compiles store name parameters is)
    (hk : AllKnown f.bytecode.constants (is ++ returnCode))
    (hs : ∀ v ∈ f.bytecode.constants, store.Sound v) : (listing? store f).isSome := by
  have hlisting := fun title => hc.code.isSome_listing hk (fun v hv => (hs v hv).shows) title
  have hnamed := hc.named
  unfold Store.Names at hnamed
  unfold listing?
  cases hn : f.name with
  | none => exact hlisting _
  | some a =>
    cases name with
    | none => simp [hn] at hnamed
    | some x =>
      simp only [hn] at hnamed
      simp only [hnamed]
      exact hlisting x

/-- A function that ends becomes an object. -/
theorem effect_finishFunction (h : Describes c s) {name : Option String} {parameters : List String}
    {is : List Instr} (hcode : s.draft.bytecode.code.toList = codeBytes is) (hfits : ∀ i ∈ is, i.Fits)
    (hknown : AllKnown s.draft.bytecode.constants is) (hnamed : s.store.Names s.draft.toFunction name)
    (harity : s.draft.arity.toNat = parameters.length) :
    Effect True finishFunction s fun r t => ∃ f : Function, r = ⟨c.functions⟩ ∧
      t.store.function? r = some f ∧ f.Compiles t.store name parameters is ∧
      f.bytecode.constants = s.draft.bytecode.constants ∧ s.store.Extends t.store ∧
      Describes { c with functions := c.functions + 1 } t := by
  refine (effect_emitReturn h).andThen fun _ t ⟨ht, hpool⟩ => ?_
  have hd := ht.describes
  have hwrote := ht.wrote
  simp only [State.pool, Pool.mk.injEq] at hpool
  obtain ⟨hconstants, hstore⟩ := hpool
  have hcompiles : t.draft.toFunction.Compiles t.store name parameters is := by
    refine ⟨?_, ?_, ⟨?_, ?_⟩, ?_⟩
    · rw [hstore]
      simpa [Store.Names, Draft.toFunction, hwrote.name] using hnamed
    · rw [← harity, ← hwrote.arity]
      rfl
    · rw [codeBytes_append, ← hcode]
      exact hwrote.code
    · intro i hi
      exact (List.mem_append.1 hi).elim (hfits i) (hwrote.fits i)
    · exact Nat.le_trans (Nat.le_of_eq hd.pooled.size) hd.pooled.room
  have hlisting := isSome_listing hcompiles (AllKnown.append_iff.2 ⟨hconstants ▸ hknown, Decl.known_returnCode⟩)
    hd.pooled.sound
  refine (effect_listFunction hd hlisting).andThen ?_
  rintro _ _ ⟨listing, rfl⟩
  have hs := Store.Extends.of_addFunction t.store t.draft.toFunction
  refine .of_run rfl (fun hf => hf hd.ready.errors) ⟨t.draft.toFunction, ?_, ?_,
    hcompiles.mono hs, hconstants, hstore ▸ hs, ⟨hd.ready.1, hd.ready.2⟩, hd.faultless, hd.defect, hd.locals,
    hd.depth, hd.isScript, hd.live, hd.pooled.of_store hs, ?_⟩
  · rw [← hd.functions]
  · simp [Store.function?]
  · rw [← hd.functions]
    simp

/-- The function around another one is gone on with. -/
theorem effect_restore {d : Context} {t : State} (h : Describes c s) (ht : Describes d t)
    (hs : s.store.Extends t.store) :
    Effect True (modify fun u => { u with draft := s.draft } : Action Unit) t fun _ u =>
      Emits { c with functions := d.functions } [] s u ∧ u.store = t.store := by
  refine .of_run rfl (fun hf => hf ht.ready.errors) ⟨⟨⟨⟨ht.ready.1, ht.ready.2⟩, ht.faultless, ht.defect,
    h.locals, h.depth, h.isScript, h.live, h.pooled.of_store hs, ht.functions⟩, .of_draft rfl hs⟩, rfl⟩

/-- A function is left on the stack as a constant. -/
def FunctionCode (first : Nat) (x : String) (parameters : List String) (body : List Decl) (κ : Pool)
    (is : List Instr) : Prop :=
  ∃ i f ib, κ.constants[i]? = some (.function ⟨first + Decl.listFunctionCount body⟩) ∧
    κ.store.function? ⟨first + Decl.listFunctionCount body⟩ = some f ∧
    f.Compiles κ.store (some x) parameters ib ∧
    Decl.ListCode ⟨f.bytecode.constants, κ.store⟩ (.function parameters) first body ib ∧
    is = [⟨.constant, i⟩]

/-- A function has become an object, which the function around it knows nothing of yet. -/
structure Compiled (c : Context) (x : String) (parameters : List String) (body : List Decl) (s : State)
    (r : FunctionRef) (t : State) : Prop where
  ref : r = ⟨c.functions + Decl.listFunctionCount body⟩
  emits : Emits { c with functions := c.functions + Decl.listFunctionCount body + 1 } [] s t
  sound : t.store.Sound (.function r)
  code : ∃ f ib, t.store.function? r = some f ∧ f.Compiles t.store (some x) parameters ib ∧
    Decl.ListCode ⟨f.bytecode.constants, t.store⟩ (.function parameters) c.functions body ib

/-- Compiles a function after its name, and goes on with the one around it. -/
def compileFunction (x : String) (parameters : List String) (body : Action Unit) : Action FunctionRef := do
  let outer ← Decl.writeHead x parameters
  body
  advance
  let function ← finishFunction
  modify fun s => { s with draft := outer }
  return function

theorem run_writeFunction (x : String) (parameters : List String) (body : Action Unit) (s : State) :
    (Decl.writeFunction x parameters body).run s =
      (compileFunction x parameters body >>= fun r => emitConstant (.function r)).run s := rfl

theorem effect_compileFunction (h : Describes c s) {x : String} {xs : List String} {ds : List Decl} {P : Prop}
    {body : Action Unit} [Enduring body] {d : Context}
    (hd : d.functions = c.functions + Decl.listFunctionCount ds)
    (hbody : ∀ {t}, xs.Nodup → Describes (c.inside xs) t → Effect P body t fun _ u =>
      Yields d (fun κ is => Decl.ListCode κ (.function xs) c.functions ds is) t u) :
    Effect ((xs.Nodup ∧ xs.length ≤ 255) ∧ P) (compileFunction x xs body) s (Compiled c x xs ds s) := by
  refine ((effect_writeHead h x xs).mono fun _ _ hp hq => And.intro hp hq).bind ?_
  rintro _ t ⟨⟨hnodup, -⟩, rfl, hb⟩
  refine (hbody hnodup hb.describes).bindTrue ?_
  rintro _ u ⟨is, hu, hcode⟩
  refine (effect_advance hu.describes).andThen fun _ v hv => ?_
  have hwrote := (hu.trans hv).wrote
  rw [List.append_nil] at hwrote
  have hcode' := hcode.mono hv.wrote.pool
  have hbytes : v.draft.bytecode.code.toList = codeBytes is := by
    rw [hwrote.code, hb.code, List.nil_append]
  have hnamed : v.store.Names v.draft.toFunction (some x) := by
    have hn : v.store.Names t.draft.toFunction (some x) := hb.named.mono hwrote.pool.store
    simpa [Store.Names, Draft.toFunction, hwrote.name] using hn
  refine (effect_finishFunction hv.describes hbytes hwrote.fits hcode'.known hnamed
    (hwrote.arity ▸ hb.arity)).andThen ?_
  rintro _ w ⟨f, rfl, hf, hcompiles, hconstants, hext, hw⟩
  have hstore : s.store.Extends w.store := hb.store.trans (hwrote.pool.store.trans hext)
  refine (effect_restore h hw hstore).andThen ?_
  rintro _ w' ⟨hw', hwstore⟩
  rw [← hwstore] at hf hcompiles
  have hlist : Decl.ListCode ⟨f.bytecode.constants, w'.store⟩ (.function xs) c.functions ds is := by
    rw [hconstants, hwstore]
    exact hcode'.mono (.of_store _ hext)
  have hsound : w'.store.Sound (.function ⟨d.functions⟩) := by
    refine .function (t := ⟨some x, xs, ds, c.functions, by simp⟩) hf ⟨is, hcompiles, hlist⟩ fun v' hv' => ?_
    rw [hconstants] at hv'
    rw [hwstore]
    exact (hv.describes.pooled.sound v' hv').mono hext
  rw [hd] at hf hsound hw' ⊢
  exact .pure hw'.describes.not_failed ⟨rfl, hw', hsound, f, is, hf, hcompiles, hlist⟩

theorem effect_writeFunction (h : Describes c s) {x : String} {xs : List String} {ds : List Decl} {P : Prop}
    {body : Action Unit} [Enduring body] {d : Context}
    (hd : d.functions = c.functions + Decl.listFunctionCount ds)
    (hbody : ∀ {t}, xs.Nodup → Describes (c.inside xs) t → Effect P body t fun _ u =>
      Yields d (fun κ is => Decl.ListCode κ (.function xs) c.functions ds is) t u) :
    Effect ((xs.Nodup ∧ xs.length ≤ 255) ∧ P ∧ c.Room .one) (Decl.writeFunction x xs body) s fun _ t =>
      Yields { c.add .one with functions := c.functions + Decl.listFunctionCount ds + 1 }
        (FunctionCode c.functions x xs ds) s t := by
  refine Effect.congr (.of_run_eq (run_writeFunction x xs body s) ?_) (and_assoc (c := c.Room .one))
  refine (effect_compileFunction h hd hbody).bind ?_
  rintro _ t ⟨rfl, ht, hsound, f, is, hf, hcompiles, hlist⟩
  refine (effect_emitConstant ht.describes hsound).mono ?_
  rintro _ u - ⟨js, hu, i, hi, hjs⟩
  have hs := hu.wrote.pool.store
  exact ⟨js, ht.trans hu, i, f, is, hi, hs.function hf, hcompiles.mono hs, hlist.mono (.of_store _ hs), hjs⟩

end StackScript.Compiler
