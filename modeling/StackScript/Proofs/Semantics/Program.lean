import StackScript.Proofs.Semantics.Statement

/-! Whole programs: a machine that is given a source comes to an end exactly if a walk through its trees does, and then to
the same one. -/
namespace StackScript
open Machine
variable {k : Spot} {names : List String} {ip n : Nat} {m : Machine} {s : Scene} {d : Datum}

/-! ### Functions -/

theorem FunctionTree.isLocal_scope (t : FunctionTree) : t.scope.isLocal = t.name.isSome := by
  rw [FunctionTree.scope]
  cases t.name <;> rfl

theorem run_invoke (n : Nat) (c : Surroundings) (ref : FunctionRef) (t : FunctionTree) (args : List Datum) (s : Scene) :
    (Walk.invoke (n + 1) c ref t args).run s =
      ((Decl.listExec (Walk.invoke n) (n + 1) c t.name.isSome t.first t.body >>=
        Walk.orNull (c.skip (Decl.listSize t.name.isSome t.body))) >>= fun v => do
        modify fun s' => { s' with locals := s.locals }
        return v).run { s with locals := t.locals ref args } := rfl

/-- The body of a function ends with a return, at the latest in the last instruction. -/
theorem body_follows (hinvoke : EnterFollows n (Walk.invoke n)) {t : FunctionTree} {is : List Instr}
    (hcode : k.code = is ++ returnCode) (hlist : Decl.ListCode k.pool t.scope t.first t.body is)
    (hret : k.callers = [] → NoReturn is) (h : Stage k t.scope.names 0 m s []) :
    Follows k.limits (n + 1) m
      (fun d s' m' => Returned k m' s'.toWorld d ∨
        Stage k (t.scope.afterAll t.body).names (codeLength is + 1) m' s' [d] ∧ k.Has (codeLength is + 1) [⟨.out, 0⟩])
      ((Decl.listExec (Walk.invoke n) (n + 1) (k.around 0 []) t.name.isSome t.first t.body >>=
        Walk.orNull (k.around (codeLength is) [])).run s) := by
  have hat : k.Has 0 (is ++ returnCode) := ⟨[], [], by simp [hcode], rfl⟩
  have hexec := Decl.listExec_follows hinvoke t.scope t.first t.body is hlist hret hat.left h
  rw [t.isLocal_scope] at hexec
  refine hexec.bind fun {o s' m'} h => ?_
  cases o with
  | some d => exact .stay (.inl h)
  | none =>
    have h : Stage k (t.scope.afterAll t.body).names (0 + codeLength is) m' s' [] := h
    have hend := hat.right
    rw [Nat.zero_add] at h hend
    exact (h.pushes hend (fun _ => rfl) .null).mono fun h => .inr ⟨h, hend.tail⟩

/-- Functions are followed however deep they call each other. -/
theorem invoke_follows (n : Nat) : EnterFollows n (Walk.invoke n) := by
  induction n with
  | zero => exact fun {k t ref args m s} _ _ _ => .tires (.zero m)
  | succ n ih =>
    intro k t ref args m s hcallers hruns h
    obtain ⟨is, hcode, hlist⟩ := hruns
    rw [run_invoke, Spot.skip_around, Nat.zero_add, ← t.isLocal_scope, ← hlist.size, t.isLocal_scope]
    have hbody := body_follows ih hcode hlist (fun hnil => absurd hnil hcallers) h
    have hreturns : Follows k.limits (n + 1) m (fun d s' m' => Returned k m' s'.toWorld d)
        ((Decl.listExec (Walk.invoke n) (n + 1) (k.around 0 []) t.name.isSome t.first t.body >>=
          Walk.orNull (k.around (codeLength is) [])).run { s with locals := t.locals ref args }) := by
      refine hbody.onward fun {d s' m'} h => ?_
      obtain h | ⟨h, hat⟩ := h
      · exact ⟨m', .refl m', h⟩
      · obtain ⟨m'', hstep, h⟩ := h.returns hat hcallers
        exact ⟨m'', .one hstep, h⟩
    exact hreturns.bind fun h => .arrives (.refl _) ⟨h, rfl⟩

/-! ### The script -/

/-- A machine is going to end the script with its next step. -/
def Finishes (l : Limits) (m : Machine) (w : World) : Prop :=
  ∃ m', cycle.run m = .error .finished m' ∧ m'.frames = [] ∧ Mirrors l m' w

theorem Stage.finishes (h : Stage k names ip m s [d]) (hat : k.Has ip [⟨.out, 0⟩]) (hcallers : k.callers = [])
    (hnames : names ≠ []) : Finishes k.limits m s.toWorld := by
  obtain ⟨m', hrun, hm, -⟩ := h.run_cycle hat
  have hframes := hm.frames
  rw [hcallers] at hframes
  obtain ⟨rest, v, hstack, -, hrest⟩ := hm.stack.pop
  obtain ⟨⟨x, e⟩, older, hlocals⟩ := List.exists_cons_of_ne_nil (l := s.locals) fun hnil => hnames (by
    rw [← h.names, hnil]
    rfl)
  rw [hlocals] at hrest
  obtain ⟨below, w, rfl, -, -⟩ := hrest.pop
  have hreturn : (⟨.out, 0⟩ : Instr).perform.run m' = .error .finished { m' with frames := [], stack := below } :=
    run_returnTop_script hframes hstack
  exact ⟨_, hrun.trans hreturn, rfl, (hm.mirrors.with_frames []).with_stack below⟩

theorem script_follows {t : FunctionTree} {ref : FunctionRef} {is : List Instr} (hscope : t.scope = .script)
    (hcode : k.code = is ++ returnCode) (hlist : Decl.ListCode k.pool t.scope t.first t.body is)
    (hcallers : k.callers = []) (hret : NoReturn is)
    (h : Stage k t.scope.names 0 m { s with locals := t.locals ref [] } []) (n : Nat) :
    Follows k.limits n m (fun _ s' m' => Finishes k.limits m' s'.toWorld)
      ((Walk.invoke n (k.around 0 []) ref t []).run s) := by
  cases n with
  | zero => exact .tires (.zero m)
  | succ n =>
    rw [run_invoke, Spot.skip_around, Nat.zero_add, ← t.isLocal_scope, ← hlist.size, t.isLocal_scope]
    have hbody := body_follows (invoke_follows n) hcode hlist (fun _ => hret) h
    refine Follows.bind hbody fun {d s' m'} h => .arrives (.refl m') ?_
    obtain h | ⟨h, hat⟩ := h
    · exact absurd (h.frames.trans hcallers) h.running.active
    · rw [hscope, Scope.afterAll_eq, Scope.foldl_declare_of_global Scope.isLocal_script] at h
      exact h.finishes hat hcallers (List.cons_ne_nil _ _)

end StackScript
