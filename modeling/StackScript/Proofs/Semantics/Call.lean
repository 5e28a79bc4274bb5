import StackScript.Proofs.Semantics.Operation

/-! Calls: a machine that begins one is where a walk is that begins one, and goes on behind it with its value. -/
namespace StackScript
open Machine

/-- The code of a call is that of a tree. -/
def Spot.Runs (k : Spot) (t : FunctionTree) : Prop :=
  ∃ is, k.code = is ++ returnCode ∧ Decl.ListCode k.pool t.scope t.first t.body is

/-- A call is over, and its value is on the stack in the place of its function and its arguments. -/
structure Returned (k : Spot) (m : Machine) (w : World) (d : Datum) : Prop where
  running : m.Running
  mirrors : Mirrors k.limits m w
  frames : m.frames = k.callers
  stack : Holds m.store k.below [d] m.stack
  store : k.store.Extends m.store

/-- Walks through functions are followed, if they are not longer than allowed, and the machine takes some steps at least if
they are. -/
def EnterFollows (n : Nat) (enter : Walk.Enter) : Prop :=
  ∀ {k : Spot} {t : FunctionTree} {ref : FunctionRef} {args : List Datum} {m : Machine} {s : Scene}, k.callers ≠ [] →
    k.Runs t → Stage k t.scope.names 0 m { s with locals := t.locals ref args } [] →
    Follows k.limits n m (fun d s' m' => Returned k m' s'.toWorld d ∧ s'.locals = s.locals)
      ((enter (k.around 0 []) ref t args).run s)

section
variable {t : FunctionTree} {ref : FunctionRef} {args : List Datum}

theorem FunctionTree.values_locals (h : args.length = t.parameters.length) :
    (t.locals ref args).map Prod.snd = args.reverse ++ [.function ref t] := by
  rw [FunctionTree.locals, List.map_append, List.map_reverse, List.map_snd_zip (Nat.le_of_eq h)]
  rfl

theorem FunctionTree.names_locals (h : args.length = t.parameters.length) :
    (t.locals ref args).map Prod.fst = t.scope.names := by
  rw [FunctionTree.locals, List.map_append, List.map_reverse, List.map_fst_zip (Nat.le_of_eq h.symm),
    FunctionTree.scope]
  cases hname : t.name with
  | some x => rfl
  | none =>
    rw [t.plain hname]
    rfl

end

section
variable {k : Spot} {names : List String} {ip n : Nat} {m : Machine} {s : Scene} {temps temps' args : List Datum} {callee d : Datum}
  {enter : Walk.Enter}

/-- The callee and its arguments on top of the stack. -/
theorem Scenery.exists_callee (h : Scenery k names ip m s (args.reverse ++ callee :: temps)) :
    ∃ below v own, m.stack = below.push v ++ own ∧ own.size = args.length ∧ Denotes m.store v callee ∧
      List.Forall₂ (Denotes m.store) own.toList args ∧
      Holds m.store k.below (temps ++ s.locals.map Prod.snd) below ∧
      Holds m.store below (args.reverse ++ [callee]) m.stack := by
  have hstack := h.stack
  rw [List.append_assoc] at hstack
  obtain ⟨mid, hmid, hargs⟩ := hstack.split
  obtain ⟨below, v, rfl, hv, hbelow⟩ := hmid.pop
  obtain ⟨own, hown, hvalues⟩ := hargs.exists_append
  rw [List.reverse_reverse] at hvalues
  have htop : Holds m.store below [callee] (below.push v) := .push .nil hv
  exact ⟨below, v, own, hown, hvalues.length_eq, hv, hvalues, hbelow, htop.join hargs⟩

/-- The call that begins where a function of some code is called. -/
def Spot.calling (k : Spot) (m : Machine) (below : Array Value) (name : Option String) {f : Function} {code : List Instr}
    (consists : f.bytecode.Consists code) : Spot :=
  ⟨k.limits, f, code, consists, m.frames, below, m.store, name :: k.active⟩

section
variable {below : Array Value} {f : Function} {t : FunctionTree} {ref : FunctionRef} {is : List Instr}

/-- The variables of a call that begins are its function and its arguments. -/
theorem Scenery.begins (h : Scenery k names ip m s temps) (hf : f.Compiles m.store t.name t.parameters is)
    (hargs : args.length = t.parameters.length)
    (hstack : Holds m.store below (args.reverse ++ [.function ref t]) m.stack)
    (hm : ({ m with frames := ⟨f, 0, below.size⟩ :: m.frames } : Machine).Running) :
    Stage (k.calling m below t.name hf.code) t.scope.names 0 { m with frames := ⟨f, 0, below.size⟩ :: m.frames }
      { s with locals := t.locals ref args } [] := by
  refine ⟨⟨h.mirrors.with_frames _, rfl, .cons hf.named h.active, ?_, .refl _, FunctionTree.names_locals hargs⟩, hm⟩
  rw [List.nil_append, FunctionTree.values_locals hargs]
  exact hstack

/-- The surroundings of the body of a function. -/
theorem Spot.around_calling {consists : f.bytecode.Consists is}
    (hbelow : Holds m.store k.below (temps ++ s.locals.map Prod.snd) below) (name : Option String) (place : Nat) :
    (k.calling m below name consists).around 0 [] = { k.around place temps with
      active := name :: k.active, held := (k.around place temps).held + s.locals.length, place := 0 } := by
  have hsize : below.size = k.below.size + temps.length + s.locals.length := by
    rw [hbelow.size, List.length_append, List.length_map, Nat.add_assoc]
  change (⟨k.limits, name :: k.active, below.size + 0, 0⟩ : Surroundings) =
    ⟨k.limits, name :: k.active, k.below.size + temps.length + s.locals.length, 0⟩
  rw [hsize, Nat.add_zero]

/-- Behind a call the one that has waited for it goes on with its value. -/
theorem Returned.goesOn {consists : f.bytecode.Consists is} {name : Option String} {m' : Machine} {s' : Scene}
    (h : Returned (k.calling m below name consists) m' s'.toWorld d) (hm : Scenery k names ip m s temps')
    (hbelow : Holds m.store k.below (temps ++ s.locals.map Prod.snd) below) (hlocals : s'.locals = s.locals) :
    Stage k names ip m' s' (d :: temps) := by
  refine ⟨⟨h.mirrors, h.frames.trans hm.frames, ?_, ?_, hm.store.trans h.store, ?_⟩, h.running⟩
  · rw [h.frames]
    exact hm.active.mono h.store
  · rw [hlocals]
    exact (hbelow.mono h.store).join h.stack
  · rw [hlocals]
    exact hm.names

end

/-- A call, from its instruction to the one behind it. -/
theorem call_follows (henter : EnterFollows n enter) (h : Stage k names ip m s (args.reverse ++ callee :: temps))
    (hat : k.Has ip [⟨.call, args.length⟩]) :
    Follows k.limits (n + 1) m (fun d s' m' => Stage k names (ip + 2) m' s' (d :: temps))
      ((Walk.call enter (k.around ip temps) args callee).run s) := by
  have hcount : args.length.toUInt8.toNat = args.length := UInt8.toNat_ofNat_of_lt' hat.fits
  obtain ⟨m', hrun, hm, hready⟩ := h.run_cycle hat
  obtain ⟨below, v, own, hstack, hsize, hcallee, hvalues, hbelow, hown⟩ := hm.exists_callee
  have hcounts : own.size = args.length.toUInt8.toNat := hsize.trans hcount.symm
  change cycle.run m = (callBelow args.length.toUInt8).run m' at hrun
  have hfails {e : RuntimeError} (hlast : cycle.run m = .error (.failed e) m') :
      Follows k.limits (n + 1) m (fun d s' m' => Stage k names (ip + 2) m' s' (d :: temps))
        ((Walk.fail (k.around ip temps) e).run s) := .fails (.refl m) hlast h.place hm.ended
  cases hcallee with
  | @function r f t hr ht =>
    obtain ⟨is, hcompiles, hcode⟩ := ht
    have harity : args.length.toUInt8 = f.arity ↔ args.length = t.parameters.length := by
      rw [← UInt8.toNat_inj, hcount, hcompiles.arity]
    have hfull : m'.frames.length = m'.config.maxFrames ↔
      (k.around ip temps).active.length = (k.around ip temps).maxFrames := by
      rw [hm.mirrors.frames, ← hm.depth]
      rfl
    rw [run_callBelow_function hstack hcounts rfl hr] at hrun
    rw [Walk.call]
    by_cases ha : args.length = t.parameters.length
    · rw [if_neg (fun hne => hne ha)]
      by_cases hdepth : m'.frames.length = m'.config.maxFrames
      · rw [if_pos (hfull.1 hdepth)]
        exact hfails (hrun.trans (run_callFunction_full (harity.2 ha) hdepth))
      · rw [if_neg fun hd => hdepth (hfull.2 hd), Walk.run_get_bind]
        have hstep := hrun.trans (run_callFunction hstack hcounts (harity.2 ha) hdepth)
        have hbegins := hm.begins hcompiles ha hown (h.running.goesOn hstep)
        have hwaits : m'.frames ≠ [] := by
          rw [hm.frames]
          exact List.cons_ne_nil _ _
        have hruns : (k.calling m' below t.name hcompiles.code).Runs t := ⟨is, rfl, hcode⟩
        have hfollows := henter hwaits hruns hbegins
        rw [Spot.around_calling hbelow t.name ip] at hfollows
        exact (hfollows.mono fun hd => hd.1.goesOn hm hbelow hd.2).step hstep
    · rw [if_pos ha]
      have hexpected : t.parameters.length.toUInt8 = f.arity := by
        rw [← hcompiles.arity]
        exact UInt8.ofNat_toNat
      rw [hexpected]
      exact hfails (hrun.trans (run_callFunction_arity fun he => ha (harity.1 he)))
  | @native r hr =>
    obtain ⟨f, hf⟩ := Option.isSome_iff_exists.1 hr
    obtain ⟨host, hhost, hof⟩ := hm.mirrors.hosts hf
    have harity : args.length.toUInt8 = f.arity ↔ args.length = host.arity.toNat := by
      rw [← UInt8.toNat_inj, hcount, hof.arity]
    have hknown : (k.around ip temps).hosts r = some host := hhost
    rw [run_callBelow_native hstack hcounts rfl hf] at hrun
    rw [Walk.call]
    rw [hknown]
    dsimp only
    by_cases ha : args.length = host.arity.toNat
    · rw [if_neg (fun hne => hne ha)]
      have hstep := hrun.trans (run_callNative hstack hcounts (harity.2 ha) hready.room)
      have hsound : ∀ v ∈ own.toList, m'.store.Sound v := fun v hv => by
        apply hready.sound.stack
        rw [hstack]
        exact Array.mem_append_right _ (Array.mem_toList_iff.1 hv)
      exact .arrives (.one hstep) ⟨hm.with_stack (.push hbelow (hof.call hsound hvalues)), h.running.goesOn hstep⟩
    · rw [if_pos ha, ← hof.arity]
      exact hfails (hrun.trans (run_callNative_arity fun he => ha (harity.1 he)))
  | _ =>
    exact hfails (hrun.trans (run_callBelow_fail hstack hcounts (fun _ => Value.noConfusion)
      fun _ => Value.noConfusion))

end

end StackScript
