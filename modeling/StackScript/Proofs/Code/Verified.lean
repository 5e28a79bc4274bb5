import StackScript.Proofs.Code.Heights

/-! A verifier for bytecode: the code is a row of whole instructions, all operands name something, and at each
instruction the stack has one height, however the code gets there. The functions of trees pass it. -/
namespace StackScript

namespace Bytecode

/-- Taking the code apart from an offset on, as the widths of the operations say, gives the instructions. -/
def Decodes (b : Bytecode) : Nat → List Instr → Prop
  | n, [] => n = b.size
  | n, i :: is => b.opAt? n = some i.op ∧
    (match i.op.width with
      | 0 => True
      | 1 => b.code[n + 1]?.map UInt8.toNat = some i.operand
      | _ => b.readPair? (n + 1) = some i.operand) ∧
    Decodes b (b.nextOffset n) is

theorem Consists.decodes_behind {b : Bytecode} {is : List Instr} (pre : List Instr) (h : b.Consists (pre ++ is)) :
    b.Decodes (codeLength pre) is := by
  induction is generalizing pre with
  | nil =>
    rw [List.append_nil] at h
    exact h.size.symm
  | cons i is ih =>
    refine ⟨h.opAt?, ?_, ?_⟩
    · rcases Instr.width_cases i.op with hw | hw | hw <;> rw [hw]
      · trivial
      · have hfits : i.operand < 256 ^ 1 := hw ▸ h.fits i (by simp)
        change b.code[codeLength pre + 1]?.map UInt8.toNat = some i.operand
        rw [h.operandByte hw, Option.map_some, UInt8.toNat_ofNat_of_lt' hfits]
      · exact h.readPair? hw
    · rw [h.nextOffset]
      exact ih _ (by rwa [List.append_assoc])

theorem Consists.decodes {b : Bytecode} {is : List Instr} (h : b.Consists is) : b.Decodes 0 is :=
  Consists.decodes_behind [] h

end Bytecode

namespace Function

/-- The height of the stack at an offset of the code, counted from slot zero: at the beginning there are the
function and its arguments. -/
def height (f : Function) (is : List Instr) (offset : Nat) : Nat := heightAt (f.arity.toNat + 1) is offset

/-- Code that passes the verifier. -/
structure Verified (f : Function) (s : Store) (is : List Instr) : Prop where
  decodes : f.bytecode.Decodes 0 is
  ending : ∃ body, is = body ++ returnCode
  start : f.height is 0 = f.arity.toNat + 1
  /-- Operands name something. -/
  refers : ∀ {pre i post}, is = pre ++ i :: post → i.Refers ⟨f.bytecode.constants, s⟩ (f.height is (codeLength pre))
  /-- Slot zero stays. -/
  takes : ∀ {pre i post}, is = pre ++ i :: post → 1 + i.takes ≤ f.height is (codeLength pre)
  /-- The code goes on at an instruction, which expects the stack as it has been left. -/
  flows : ∀ {pre i post n}, is = pre ++ i :: post → n ∈ i.successors (codeLength pre) →
    ∃ pre' j post', is = pre' ++ j :: post' ∧ codeLength pre' = n ∧
      f.height is n = f.height is (codeLength pre) - i.takes + i.gives

end Function

theorem heightAt_zero (h : Nat) (is : List Instr) : heightAt h is 0 = h := by cases is <;> rfl

theorem Instr.successors_cases {i : Instr} {offset n : Nat} (h : n ∈ i.successors offset) :
    i.target? offset = some n ∨ (n = offset + i.size ∧ i.op ≠ .out ∧ i.op ≠ .jump ∧ i.op ≠ .loop) := by
  obtain ⟨op, k⟩ := i
  cases op
  case out => cases h
  case jump => exact .inl (congrArg some (List.mem_singleton.1 h).symm)
  case loop => exact .inl (congrArg some (List.mem_singleton.1 h).symm)
  case jumpIfFalse =>
    obtain rfl | h := List.mem_cons.1 h
    · exact .inr ⟨rfl, by simp, by simp, by simp⟩
    · exact .inl (congrArg some (List.mem_singleton.1 h).symm)
  case jumpIfTrue =>
    obtain rfl | h := List.mem_cons.1 h
    · exact .inr ⟨rfl, by simp, by simp, by simp⟩
    · exact .inl (congrArg some (List.mem_singleton.1 h).symm)
  all_goals exact .inr ⟨List.mem_singleton.1 h, by simp, by simp, by simp⟩

/-- Behind an instruction that is not the last return there is another one. -/
theorem ne_nil_of_returnCode {body pre post : List Instr} {i : Instr} (h : body ++ returnCode = pre ++ i :: post)
    (hi : i.op ≠ .out) : post ≠ [] := by
  rintro rfl
  have hlast := congrArg List.getLast? h
  rw [List.getLast?_append, List.getLast?_append] at hlast
  have hout : (⟨.out, 0⟩ : Instr) = i := Option.some.inj hlast
  exact hi (hout ▸ rfl)

/-- Code that flows passes the verifier. -/
theorem Flow.verified {f : Function} {s : Store} {body : List Instr} (hc : f.bytecode.Consists (body ++ returnCode))
    (h : Flow ⟨f.bytecode.constants, s⟩ (body ++ returnCode) (f.arity.toNat + 1) 1 [] (body ++ returnCode)) :
    f.Verified s (body ++ returnCode) := by
  have hat : ∀ {pre i post}, body ++ returnCode = pre ++ i :: post →
      i.Flows ⟨f.bytecode.constants, s⟩ (body ++ returnCode) (f.arity.toNat + 1) 1 pre ∧
        f.height (body ++ returnCode) (codeLength pre) = heightOf (f.arity.toNat + 1) pre := by
    intro pre i post heq
    refine ⟨?_, ?_⟩
    · have hsplit := h
      rw [heq] at hsplit
      have hi := hsplit.get
      rwa [← heq] at hi
    · rw [Function.height, heq, heightAt_append]
  refine ⟨hc.decodes, ⟨body, rfl⟩, heightAt_zero _ _, fun heq => ?_, fun heq => ?_, fun heq hn => ?_⟩
  · rw [(hat heq).2]
    exact (hat heq).1.refers
  · rw [(hat heq).2]
    exact (hat heq).1.takes
  · rename_i pre i post n
    obtain ⟨hflows, hheight⟩ := hat heq
    have htakes : i.takes ≤ heightOf (f.arity.toNat + 1) pre := Nat.le_trans (Nat.le_add_left _ 1) hflows.takes
    rw [hheight]
    rcases Instr.successors_cases hn with ht | ⟨rfl, hout, hjump⟩
    · obtain ⟨pre', post', heq', hne, rfl, hsame⟩ := hflows.target ht
      obtain ⟨j, post', rfl⟩ := List.exists_cons_of_ne_nil hne
      refine ⟨pre', j, post', heq', rfl, ?_⟩
      rw [(hat heq').2, hsame, Instr.height_of_target ht htakes]
    · obtain ⟨j, post', rfl⟩ := List.exists_cons_of_ne_nil (ne_nil_of_returnCode heq hout)
      have heq' : body ++ returnCode = (pre ++ [i]) ++ j :: post' := by rw [heq, List.append_assoc]; rfl
      have hoffset : codeLength (pre ++ [i]) = codeLength pre + i.size := by simp
      refine ⟨pre ++ [i], j, post', heq', hoffset, ?_⟩
      rw [← hoffset, (hat heq').2, heightOf_append]
      exact i.next_eq _ hjump

/-- What a call of a function of a tree starts with: the function and its arguments. -/
theorem FunctionTree.live_scope {t : FunctionTree} {f : Function} (h : f.arity.toNat = t.parameters.length) :
    t.scope.live = f.arity.toNat + 1 := by
  obtain ⟨name, parameters, body, first, plain⟩ := t
  cases name with
  | none =>
    obtain rfl : parameters = [] := plain rfl
    rw [h]
    rfl
  | some x =>
    rw [h]
    exact Scope.live_function parameters

/-- The function of a tree passes the verifier. -/
theorem FunctionTree.verified {t : FunctionTree} {s : Store} {f : Function} {ib : List Instr}
    (hc : f.Compiles s t.name t.parameters ib)
    (hb : Decl.ListCode ⟨f.bytecode.constants, s⟩ t.scope t.first t.body ib) : f.Verified s (ib ++ returnCode) := by
  have hlive := FunctionTree.live_scope hc.arity
  have hbody : Flow _ (ib ++ returnCode) (f.arity.toNat + 1) t.scope.live [] ib :=
    hb.flow _ _ _ _ returnCode rfl (by simp [returnCode]) hlive.symm
  refine Flow.verified hc.code ((hbody.mono ?_).append (Decl.flow_return ?_))
  · rw [hlive]
    exact Nat.le_add_left 1 _
  · rw [List.nil_append, hb.height]
    omega

end StackScript
