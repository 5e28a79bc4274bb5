import StackScript.Proofs.Code.Program
import StackScript.Proofs.Code.Verified

/-! Where the code of declarations returns, and where it goes back to. No loop goes back behind the beginning of the
code, and a script returns in one place only, which is its end. There all that is left on the stack is the value that it
gives back and the script itself. -/
namespace StackScript

/-- The code neither returns nor goes back anywhere. -/
def Straight (is : List Instr) : Prop := ∀ i ∈ is, i.op ≠ .out ∧ i.op ≠ .loop

namespace Straight
variable {i : Instr} {is js : List Instr}

@[simp] theorem nil : Straight [] := by simp [Straight]

@[simp] theorem cons_iff : Straight (i :: is) ↔ (i.op ≠ .out ∧ i.op ≠ .loop) ∧ Straight is := by simp [Straight]

@[simp] theorem append_iff : Straight (is ++ js) ↔ Straight is ∧ Straight js := by
  simp only [Straight, List.mem_append]
  exact ⟨fun h => ⟨fun i hi => h i (.inl hi), fun i hi => h i (.inr hi)⟩, fun h i hi => hi.elim (h.1 i) (h.2 i)⟩

@[simp] theorem pops (n : Nat) : Straight (Decl.pops n) := by
  intro i hi
  rw [List.eq_of_mem_replicate hi]
  exact ⟨Opcode.noConfusion, Opcode.noConfusion⟩

end Straight

section
variable {κ : Pool} {names : List String}

theorem Literal.Code.straight {l : Literal} {is : List Instr} (h : l.Code κ is) : Straight is := by
  cases l with
  | true_ =>
    obtain rfl := h
    simp
  | false_ =>
    obtain rfl := h
    simp
  | _ =>
    obtain ⟨i, v, -, -, rfl⟩ := h
    simp

theorem Home.straight (p : Home) : Straight [p.get] ∧ Straight [p.set] := by cases p <;> simp [Home.get, Home.set]

namespace Expr

mutual

theorem Code.straight (e : Expr) (is : List Instr) (h : e.Code κ names is) : Straight is := by
  cases e with
  | literal l => exact Literal.Code.straight h
  | name x =>
    obtain ⟨p, -, rfl⟩ := h
    exact p.straight.1
  | group e => exact Code.straight e is h
  | assign x value =>
    obtain ⟨p, iv, -, hv, rfl⟩ := h
    exact Straight.append_iff.2 ⟨Code.straight value iv hv, p.straight.2⟩
  | unary op e =>
    obtain ⟨ie, he, rfl⟩ := h
    cases op <;> simp [Code.straight e ie he, Unary.opcode]
  | binary op left right =>
    obtain ⟨il, ir, hl, hr, rfl⟩ := h
    cases op <;> simp [Code.straight left il hl, Code.straight right ir hr, Binary.opcode]
  | and left right =>
    obtain ⟨il, ir, hl, hr, rfl⟩ := h
    simp [Code.straight left il hl, Code.straight right ir hr]
  | or left right =>
    obtain ⟨il, ir, hl, hr, rfl⟩ := h
    simp [Code.straight left il hl, Code.straight right ir hr]
  | call callee arguments =>
    obtain ⟨ic, ia, hc, ha, rfl⟩ := h
    simp [Code.straight callee ic hc, AllCode.straight arguments ia ha]

theorem AllCode.straight (es : List Expr) (is : List Instr) (h : AllCode κ names es is) : Straight is := by
  cases es with
  | nil =>
    obtain rfl := h
    exact .nil
  | cons e es =>
    obtain ⟨ie, js, he, hs, rfl⟩ := h
    simp [Code.straight e ie he, AllCode.straight es js hs]

end

theorem ItemsCode.straight (es : List Expr) (is : List Instr) (h : ItemsCode κ names es is) : Straight is := by
  induction es generalizing is with
  | nil =>
    obtain rfl := h
    exact .nil
  | cons e es ih =>
    obtain ⟨ie, js, he, hs, rfl⟩ := h
    simp [he.straight, ih js hs]

end Expr

theorem Pool.Settles.straight {isLocal : Bool} {x : String} {is : List Instr} (h : κ.Settles isLocal x is) :
    Straight is := by
  cases isLocal with
  | true =>
    obtain rfl : is = [] := h
    exact .nil
  | false =>
    obtain ⟨i, -, rfl⟩ := h
    simp

/-! ### Loops -/

/-- Nothing goes back behind the beginning. -/
def GoesBackInside (is : List Instr) : Prop :=
  ∀ pre i post, is = pre ++ i :: post → i.op = .loop → i.operand ≤ codeLength pre + i.size

namespace GoesBackInside
variable {i : Instr} {is js : List Instr}

theorem of_straight (h : Straight is) : GoesBackInside is :=
  fun _ _ _ heq hi => absurd hi (h _ (by rw [heq]; simp)).2

theorem append (h : GoesBackInside is) (k : GoesBackInside js) : GoesBackInside (is ++ js) := by
  intro pre i post heq hi
  obtain ⟨mid, rfl, hend⟩ | ⟨mid, rfl, hend⟩ := List.append_eq_append_iff.1 heq
  · have hle := k _ _ _ hend hi
    rw [codeLength_append]
    omega
  · cases mid with
    | nil =>
      have hle := k [] i post hend.symm hi
      rw [codeLength_nil] at hle
      omega
    | cons j mid =>
      obtain ⟨rfl, -⟩ := List.cons.inj hend
      exact h _ _ _ rfl hi

theorem cons (hi : i.op ≠ .loop) (h : GoesBackInside is) : GoesBackInside (i :: is) := by
  have hone : GoesBackInside [i] := by
    intro pre j post heq hj
    cases pre with
    | nil =>
      obtain ⟨rfl, -⟩ := List.cons.inj heq
      exact absurd hj hi
    | cons k pre => simp at heq
  exact hone.append h

end GoesBackInside

/-- A loop at the end that goes back to an instruction before it. -/
theorem GoesBackInside.append_loop {is : List Instr} {k : Nat} (h : GoesBackInside is) (hk : k ≤ codeLength is + 3) :
    GoesBackInside (is ++ [⟨.loop, k⟩, ⟨.pop, 0⟩]) := by
  intro pre i post heq hi
  obtain ⟨mid, rfl, hend⟩ | ⟨mid, rfl, hend⟩ := List.append_eq_append_iff.1 heq
  · rcases mid with - | ⟨j, mid⟩
    · obtain ⟨rfl, -⟩ := List.cons.inj hend
      rwa [List.append_nil]
    · -- behind the loop there is only the instruction that drops the condition
      have hmem : i ∈ [(⟨.pop, 0⟩ : Instr)] := by
        rw [(List.cons.inj hend).2]
        simp
      rw [List.mem_singleton.1 hmem] at hi
      cases hi
  · rcases mid with - | ⟨j, mid⟩
    · obtain ⟨rfl, -⟩ := List.cons.inj hend
      rwa [List.append_nil] at hk
    · obtain ⟨rfl, -⟩ := List.cons.inj hend
      exact h _ _ _ rfl hi

theorem goesBackInside_returnCode : GoesBackInside returnCode :=
  .cons Opcode.noConfusion (.cons Opcode.noConfusion (.of_straight .nil))

namespace Decl

mutual

theorem Code.goesBackInside (σ : Scope) (first : Nat) (d : Decl) (is : List Instr) (h : d.Code κ σ first is) :
    GoesBackInside is := by
  cases d with
  | expression e =>
    obtain ⟨ie, he, rfl⟩ := h
    exact .of_straight (by simp [he.straight])
  | print e es =>
    obtain ⟨ie, js, he, hs, rfl⟩ := h
    exact .of_straight (by simp [he.straight, hs.straight])
  | read form x =>
    obtain ⟨p, -, rfl⟩ := h
    exact .of_straight (by cases form <;> cases p <;> simp [InputForm.opcode, Home.set])
  | if_ condition body =>
    obtain ⟨ic, ib, hc, hb, rfl⟩ := h
    have hbody := ListCode.goesBackInside σ.enter _ body ib hb
    exact .append (.of_straight hc.straight) (.cons Opcode.noConfusion (.cons Opcode.noConfusion
      ((hbody.append (.of_straight (.pops _))).append (.of_straight (by simp)))))
  | ifElse condition body alternative =>
    obtain ⟨ic, ib, ia, hc, hb, ha, rfl⟩ := h
    have hbody := ListCode.goesBackInside σ.enter _ body ib hb
    have hother := ListCode.goesBackInside σ.enter _ alternative ia ha
    exact .append (.of_straight hc.straight) (.cons Opcode.noConfusion (.cons Opcode.noConfusion
      ((hbody.append (.of_straight (.pops _))).append (.cons Opcode.noConfusion (.cons Opcode.noConfusion
        (hother.append (.of_straight (.pops _))))))))
  | until_ condition body =>
    obtain ⟨ic, ib, hc, hb, rfl⟩ := h
    have hbody := ListCode.goesBackInside σ.enter _ body ib hb
    have hbefore : GoesBackInside (ic ++ ⟨.jumpIfTrue, blockSize body + 4⟩ :: ⟨.pop, 0⟩ ::
        (ib ++ pops (listDeclared body).length)) :=
      .append (.of_straight hc.straight) (.cons Opcode.noConfusion (.cons Opcode.noConfusion
        (hbody.append (.of_straight (.pops _)))))
    have hend := hbefore.append_loop (k := condition.size + blockSize body + 7) (by
      simp [hc.size, hb.size, blockSize, Instr.size, Opcode.width]
      omega)
    rwa [List.append_assoc, List.cons_append, List.cons_append] at hend
  | out value =>
    cases value with
    | none =>
      obtain rfl := h
      exact goesBackInside_returnCode
    | some e =>
      obtain ⟨ie, he, rfl⟩ := h
      exact .append (.of_straight he.straight) (.cons Opcode.noConfusion (.of_straight .nil))
  | block mark body =>
    obtain ⟨ib, hb, rfl⟩ := h
    exact (ListCode.goesBackInside σ.enter _ body ib hb).append (.of_straight (.pops _))
  | var x initial =>
    cases initial with
    | none =>
      obtain ⟨js, hj, rfl⟩ := h
      exact .of_straight (by simp [hj.straight])
    | some e =>
      obtain ⟨ie, js, he, hj, rfl⟩ := h
      exact .of_straight (by simp [he.straight, hj.straight])
  | fun_ x parameters body =>
    obtain ⟨i, f, ib, js, -, -, -, -, hj, rfl⟩ := h
    exact .of_straight (by simp [hj.straight])

theorem ListCode.goesBackInside (σ : Scope) (first : Nat) (ds : List Decl) (is : List Instr)
    (h : ListCode κ σ first ds is) : GoesBackInside is := by
  cases ds with
  | nil =>
    obtain rfl := h
    exact .of_straight .nil
  | cons d ds =>
    obtain ⟨id, js, hd, hs, rfl⟩ := h
    exact (Code.goesBackInside σ first d id hd).append (ListCode.goesBackInside _ _ ds js hs)

end

end Decl

/-! ### Returns -/

/-- No value is given back here. -/
def NoReturn (is : List Instr) : Prop := ∀ i ∈ is, i.op ≠ .out

theorem Straight.noReturn {is : List Instr} (h : Straight is) : NoReturn is := fun i hi => (h i hi).1

namespace NoReturn
variable {i : Instr} {is js : List Instr}

@[simp] theorem nil : NoReturn [] := by simp [NoReturn]

@[simp] theorem cons_iff : NoReturn (i :: is) ↔ i.op ≠ .out ∧ NoReturn is := by simp [NoReturn]

@[simp] theorem append_iff : NoReturn (is ++ js) ↔ NoReturn is ∧ NoReturn js := by
  simp only [NoReturn, List.mem_append]
  exact ⟨fun h => ⟨fun i hi => h i (.inl hi), fun i hi => h i (.inr hi)⟩, fun h i hi => hi.elim (h.1 i) (h.2 i)⟩

@[simp] theorem pops (n : Nat) : NoReturn (Decl.pops n) := (Straight.pops n).noReturn

end NoReturn

namespace Decl
variable {Q : Expr → Prop}

mutual

theorem Code.noReturn (σ : Scope) (first : Nat) (d : Decl) (is : List Instr) (hσ : σ.inFunction = false)
    (hd : d.Everywhere OutInFunction Q σ) (h : d.Code κ σ first is) : NoReturn is := by
  cases d with
  | expression e =>
    obtain ⟨ie, he, rfl⟩ := h
    simp [he.straight.noReturn]
  | print e es =>
    obtain ⟨ie, js, he, hs, rfl⟩ := h
    simp [he.straight.noReturn, hs.straight.noReturn]
  | read form x =>
    obtain ⟨p, -, rfl⟩ := h
    cases form <;> cases p <;> simp [InputForm.opcode, Home.set]
  | if_ condition body =>
    obtain ⟨ic, ib, hc, hb, rfl⟩ := h
    simp [hc.straight.noReturn, ListCode.noReturn σ.enter _ body ib hσ hd.2.2 hb]
  | ifElse condition body alternative =>
    obtain ⟨ic, ib, ia, hc, hb, ha, rfl⟩ := h
    simp [hc.straight.noReturn, ListCode.noReturn σ.enter _ body ib hσ hd.2.2.1 hb,
      ListCode.noReturn σ.enter _ alternative ia hσ hd.2.2.2 ha]
  | until_ condition body =>
    obtain ⟨ic, ib, hc, hb, rfl⟩ := h
    simp [hc.straight.noReturn, ListCode.noReturn σ.enter _ body ib hσ hd.2.2 hb]
  | out value =>
    have hout : σ.inFunction = true := by
      cases value with
      | none => exact hd
      | some e => exact hd.1
    rw [hσ] at hout
    cases hout
  | block mark body =>
    obtain ⟨ib, hb, rfl⟩ := h
    simp [ListCode.noReturn σ.enter _ body ib hσ hd.2 hb]
  | var x initial =>
    cases initial with
    | none =>
      obtain ⟨js, hj, rfl⟩ := h
      simp [hj.straight.noReturn]
    | some e =>
      obtain ⟨ie, js, he, hj, rfl⟩ := h
      simp [he.straight.noReturn, hj.straight.noReturn]
  | fun_ x parameters body =>
    obtain ⟨i, f, ib, js, -, -, -, -, hj, rfl⟩ := h
    simp [hj.straight.noReturn]

theorem ListCode.noReturn (σ : Scope) (first : Nat) (ds : List Decl) (is : List Instr) (hσ : σ.inFunction = false)
    (hds : ListEverywhere OutInFunction Q σ ds) (h : ListCode κ σ first ds is) : NoReturn is := by
  cases ds with
  | nil =>
    obtain rfl := h
    exact .nil
  | cons d ds =>
    obtain ⟨id, js, hd, hs, rfl⟩ := h
    have hafter : (σ.after d).inFunction = false := by rw [Scope.inFunction_after, hσ]
    simp [Code.noReturn σ first d id hσ hds.1 hd, ListCode.noReturn _ _ ds js hafter hds.2 hs]

end

end Decl
end

/-- Where a value is given back, it is the only one on the stack but for the function. -/
def Function.ReturnsAlone (f : Function) (is : List Instr) : Prop :=
  ∀ {pre i post}, is = pre ++ i :: post → i.op = .out → f.height is (codeLength pre) = 2

/-- A row without a return, and behind it the end of every function: the return is the last instruction. -/
theorem eq_of_noReturn {body pre post : List Instr} {i : Instr} (hbody : NoReturn body) (hi : i.op = .out)
    (h : body ++ returnCode = pre ++ i :: post) : pre = body ++ [⟨.null, 0⟩] := by
  obtain ⟨mid, rfl, hend⟩ | ⟨mid, rfl, hend⟩ := List.append_eq_append_iff.1 h
  · -- the return is one of the last two instructions, and not the first of them
    rcases mid with - | ⟨j, - | ⟨k, mid⟩⟩
    · obtain ⟨rfl, -⟩ := List.cons.inj hend
      cases hi
    · obtain ⟨rfl, -⟩ := List.cons.inj hend
      rfl
    · have hlength := congrArg List.length hend
      simp [returnCode] at hlength
  · cases mid with
    | nil =>
      obtain ⟨rfl, -⟩ := List.cons.inj hend
      cases hi
    | cons j mid =>
      obtain ⟨rfl, -⟩ := List.cons.inj hend
      exact absurd hi (hbody i (by simp))

/-- The code of a script that the language allows. -/
theorem scriptTree_returnsAlone {s t : Store} {ds : List Decl} {f : Function} {ib : List Instr} (hds : IsLegal ds)
    (hc : f.Compiles t none [] ib) (hb : Decl.ListCode ⟨f.bytecode.constants, t⟩ .script s.functions.size ds ib) :
    f.ReturnsAlone (ib ++ returnCode) := by
  intro pre i post heq hi
  have hpre := eq_of_noReturn (hb.noReturn _ _ _ _ rfl hds.outInFunction) hi heq
  have harity : f.arity.toNat = 0 := hc.arity
  rw [Function.height, heq, heightAt_append, hpre, heightOf_append, hb.height, harity]
  rfl

end StackScript
