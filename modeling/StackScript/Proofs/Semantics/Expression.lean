import StackScript.Proofs.Semantics.Call

/-! The code of an expression finds its value as a walk does, and leaves it on the stack. -/
namespace StackScript
open Machine
variable {k : Spot} {names : List String} {ip n : Nat} {m : Machine} {s : Scene} {temps : List Datum} {d : Datum}
  {enter : Walk.Enter}

/-- One instruction that leaves the value of a part of a walk. -/
theorem Stage.yields (h : Stage k names ip m s temps) {i : Instr} {is : List Instr} (hat : k.Has ip (i :: is))
    {temps' : List Datum} {x : Walk Datum}
    (hi : ∀ {m'}, Scenery k names (ip + i.size) m' s temps → Ready m' →
      Matches k.limits ip (fun _ => Leaves k names (ip + i.size) temps') (i.perform.run m') (x.run s)) :
    Follows k.limits n m (fun d s' m' => Stage k names (ip + i.size) m' s' (d :: temps')) (x.run s) :=
  (h.follows hat hi).mono fun hd => ⟨hd.2, hd.1⟩

/-- An instruction that pushes a value. -/
theorem Stage.pushes (h : Stage k names ip m s temps) {i : Instr} {is : List Instr} (hat : k.Has ip (i :: is))
    {v : Value}
    (hi : ∀ {m'}, m'.frames = ⟨k.function, ip + i.size, k.below.size⟩ :: k.callers → i.perform.run m' = (push v).run m')
    (hv : Denotes k.store v d) :
    Follows k.limits n m (fun d s' m' => Stage k names (ip + i.size) m' s' (d :: temps))
      ((Walk.produce (k.around ip temps) d).run s) := by
  refine h.yields hat fun hm _ => ?_
  rw [hi hm.frames]
  exact matches_push hm (hv.mono hm.store)

/-- An instruction that pushes a constant. -/
theorem Stage.constant (h : Stage k names ip m s temps) {i : Nat} {is : List Instr}
    (hat : k.Has ip (⟨.constant, i⟩ :: is)) {v : Value} (hi : k.pool.constants[i]? = some v)
    (hv : Denotes k.store v d) :
    Follows k.limits n m (fun d s' m' => Stage k names (ip + 2) m' s' (d :: temps))
      ((Walk.produce (k.around ip temps) d).run s) := by
  refine h.pushes hat (fun {m'} hframes => ?_) hv
  have hread : (constantAt i).run m' = .ok v m' := by
    rw [run_constantAt hframes]
    change (orStuck .badConstant k.pool.constants[i]?).run m' = _
    rw [hi, run_orStuck_some]
  exact run_bind_ok hread _

theorem literal_follows {l : Literal} {is : List Instr} (hc : l.Code k.pool is) (hat : k.Has ip is)
    (h : Stage k names ip m s temps) :
    Follows k.limits n m (fun d s' m' => Stage k names (ip + codeLength is) m' s' (d :: temps))
      ((Walk.produce (k.around ip temps) l.datum).run s) := by
  cases l with
  | true_ =>
    obtain rfl := hc
    exact h.pushes hat (fun _ => rfl) (.bool _)
  | false_ =>
    obtain rfl := hc
    exact h.pushes hat (fun _ => rfl) (.bool _)
  | _ =>
    obtain ⟨i, v, hv, hmeans, rfl⟩ := hc
    exact h.constant hat hv (.of_means hmeans)

/-- Where code with a jump in it ends that skips the second part. -/
theorem codeLength_shortCircuit {op : Opcode} (hop : op.width = 2) {il ir : List Instr} {size : Nat}
    (hr : codeLength ir = size) :
    ip + codeLength (il ++ ⟨op, size + 1⟩ :: ⟨.pop, 0⟩ :: ir) = ip + codeLength il + 3 + (size + 1) := by
  have hpop : Opcode.pop.width = 0 := rfl
  simp only [codeLength_append, codeLength_cons, Instr.size, hop, hpop, hr]
  omega

/-- The second part takes the place of the value that has been tested. -/
theorem Stage.onward (h : Stage k names ip m s (d :: temps)) {ir : List Instr} {size : Nat} {x : Walk Datum}
    (hx : ∀ {m'}, Stage k names (ip + 1) m' s temps →
      Follows k.limits n m' (fun d s' m'' => Stage k names (ip + 1 + codeLength ir) m'' s' (d :: temps)) (x.run s))
    (hr : codeLength ir = size) (hat : k.Has ip (⟨.pop, 0⟩ :: ir)) :
    Follows k.limits n m (fun d s' m' => Stage k names (ip + (size + 1)) m' s' (d :: temps)) (x.run s) := by
  obtain ⟨m', hpop, h⟩ := h.pop hat
  have hright := (hx h).before (.one hpop)
  rwa [hr, Nat.add_assoc, Nat.add_comm 1] at hright

namespace Expr

mutual

/-- Behind the code of an expression its value is on the stack. -/
theorem eval_follows (henter : EnterFollows n enter) (e : Expr) (is : List Instr) (hc : e.Code k.pool names is)
    {ip : Nat} {m : Machine} {s : Scene} {temps : List Datum} (hat : k.Has ip is) (h : Stage k names ip m s temps) :
    Follows k.limits (n + 1) m (fun d s' m' => Stage k names (ip + codeLength is) m' s' (d :: temps))
      ((e.eval enter (k.around ip temps)).run s) := by
  cases e with
  | literal l =>
    rw [eval]
    exact literal_follows hc hat h
  | name x =>
    obtain ⟨p, hp, rfl⟩ := hc
    rw [eval]
    exact h.yields hat fun hm _ => matches_get hm hp hat.fits
  | group e =>
    rw [eval]
    exact eval_follows henter e is hc hat h
  | assign x value =>
    obtain ⟨p, iv, hp, hv, rfl⟩ := hc
    rw [eval, codeLength_append, ← Nat.add_assoc, ← Code.size value iv hv]
    refine (eval_follows henter value iv hv hat.left h).bind fun h => ?_
    exact h.yields hat.right fun hm _ => matches_set hm hp hat.right.fits
  | unary op e =>
    obtain ⟨ie, he, rfl⟩ := hc
    rw [eval, codeLength_append, ← Nat.add_assoc, ← Code.size e ie he]
    refine (eval_follows henter e ie he hat.left h).bind fun h => ?_
    exact h.yields hat.right fun hm _ => matches_unary op hm
  | binary op left right =>
    obtain ⟨il, ir, hl, hr, rfl⟩ := hc
    rw [eval, codeLength_append, codeLength_append, ← Code.size left il hl, ← Code.size right ir hr,
      Spot.skip_around _ _ (_ + _), ← Nat.add_assoc, ← Nat.add_assoc, ← Nat.add_assoc]
    refine (eval_follows henter left il hl hat.left h).bind fun h => ?_
    refine (eval_follows henter right ir hr hat.right.left h).bind fun h => ?_
    exact h.yields hat.right.right fun hm hready => matches_binary op hm hready
  | and left right =>
    obtain ⟨il, ir, hl, hr, rfl⟩ := hc
    rw [eval, codeLength_shortCircuit rfl (Code.size right ir hr), ← Code.size left il hl, Spot.skip_around,
      ← Nat.add_assoc]
    refine (eval_follows henter left il hl hat.left h).bind fun {d s' m₁} h => ?_
    obtain ⟨m₂, hjump, h⟩ := h.jumpIfFalse hat.right
    refine Follows.before (.one hjump) ?_
    by_cases hd : d.isFalsey
    · rw [if_pos hd] at h ⊢
      exact .stay h
    · rw [if_neg hd] at h ⊢
      exact h.onward (fun h => eval_follows henter right ir hr hat.right.tail.tail h) (Code.size right ir hr)
        hat.right.tail
  | or left right =>
    obtain ⟨il, ir, hl, hr, rfl⟩ := hc
    rw [eval, codeLength_shortCircuit rfl (Code.size right ir hr), ← Code.size left il hl, Spot.skip_around,
      ← Nat.add_assoc]
    refine (eval_follows henter left il hl hat.left h).bind fun {d s' m₁} h => ?_
    obtain ⟨m₂, hjump, h⟩ := h.jumpIfTrue hat.right
    refine Follows.before (.one hjump) ?_
    by_cases hd : d.isFalsey
    · rw [if_pos hd] at h ⊢
      exact h.onward (fun h => eval_follows henter right ir hr hat.right.tail.tail h) (Code.size right ir hr)
        hat.right.tail
    · rw [if_neg hd] at h ⊢
      exact .stay h
  | call callee arguments =>
    obtain ⟨ic, ia, hcallee, ha, rfl⟩ := hc
    rw [eval, codeLength_append, codeLength_append, ← Code.size callee ic hcallee, ← AllCode.size arguments ia ha,
      Spot.skip_around _ _ (_ + _), ← Nat.add_assoc, ← Nat.add_assoc, ← Nat.add_assoc]
    refine (eval_follows henter callee ic hcallee hat.left h).bind fun h => ?_
    refine (evalAll_follows henter arguments ia ha hat.right.left h).bind fun {args s' m'} h => ?_
    have hcall := hat.right.right
    rw [← h.2] at hcall
    exact call_follows henter h.1 hcall

/-- Behind the code of expressions their values are on the stack, the last one on top. -/
theorem evalAll_follows (henter : EnterFollows n enter) (es : List Expr) (is : List Instr)
    (hc : AllCode k.pool names es is) {ip : Nat} {m : Machine} {s : Scene} {temps : List Datum} (hat : k.Has ip is)
    (h : Stage k names ip m s temps) :
    Follows k.limits (n + 1) m
      (fun ds s' m' => Stage k names (ip + codeLength is) m' s' (ds.reverse ++ temps) ∧ ds.length = es.length)
      ((evalAll enter (k.around ip temps) es).run s) := by
  cases es with
  | nil =>
    obtain rfl := hc
    rw [evalAll]
    exact .stay ⟨h, rfl⟩
  | cons e es =>
    obtain ⟨ie, js, he, hes, rfl⟩ := hc
    rw [evalAll, codeLength_append, ← Nat.add_assoc, ← Code.size e ie he]
    refine (eval_follows henter e ie he hat.left h).bind fun {d s' m'} h => ?_
    refine (evalAll_follows henter es js hes hat.right h).bind fun {ds s'' m''} h => ?_
    refine .stay ⟨?_, congrArg (· + 1) h.2⟩
    rw [List.reverse_cons, List.append_assoc]
    exact h.1

end

end Expr

end StackScript
