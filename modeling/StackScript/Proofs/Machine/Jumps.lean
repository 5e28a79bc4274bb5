import StackScript.Proofs.Code.Targets
import StackScript.Proofs.Machine.Running

/-! Jumps are understood alike: where the compiler has meant a jump to go, where the machine goes on when it takes it,
and where the listing says that it goes. -/
namespace StackScript
open Compiler

/-- An operation that may go on elsewhere in the code. -/
def Opcode.isJump : Opcode → Bool
  | .jump | .jumpIfFalse | .jumpIfTrue | .loop => Bool.true
  | _ => Bool.false

/-- The machine takes a jump: always, or if the value on the stack is as the operation asks. -/
def Machine.Takes (m : Machine) : Opcode → Prop
  | .jump | .loop => True
  | .jumpIfFalse => ∃ (rest : Array Value) (v : Value), m.stack = rest.push v ∧ v.isFalsey = true
  | .jumpIfTrue => ∃ (rest : Array Value) (v : Value), m.stack = rest.push v ∧ v.isFalsey = false
  | _ => False

/-- A jump in a function goes to a target: there a machine is after the step that takes it, and there it goes by the
listing. -/
structure Function.Leads (f : Function) (s : Store) (op : Opcode) (place target : Nat) : Prop where
  opAt? : f.bytecode.opAt? place = some op
  taken : ∀ {m : Machine} {frame : Frame} {callers : List Frame}, m.frames = frame :: callers → frame.function = f →
    frame.ip = place → m.Takes op →
      Machine.step.run m = .ok () { m with frames := { frame with ip := target } :: callers }
  listed : f.bytecode.instructionText? s place = some (Bytecode.padLeft 4 '0' (toString place) ++ " " ++
    f.bytecode.lineColumn place ++ (Bytecode.operandText op place ++ " -> " ++ toString target) ++ "\n")

section
variable {m : Machine} {frame : Frame} {callers : List Frame} {pre post : List Instr} {i : Instr} {target : Nat}

theorem Instr.exists_target (h : i.op.isJump = true) (n : Nat) : ∃ target, i.target? n = some target := by
  obtain ⟨op, k⟩ := i
  cases op <;> first | exact ⟨_, rfl⟩ | cases h

namespace Machine

theorem run_step_taken (hframes : m.frames = frame :: callers)
    (hcode : frame.function.bytecode.Consists (pre ++ i :: post)) (hip : frame.ip = codeLength pre)
    (hback : GoesBackInside (pre ++ i :: post)) (htarget : i.target? frame.ip = some target) (htaken : m.Takes i.op) :
    step.run m = .ok () { m with frames := { frame with ip := target } :: callers } := by
  have hnext := frames_goTo hframes (codeLength pre + i.size)
  have hstack : (m.goTo (codeLength pre + i.size)).stack = m.stack := by rw [goTo_eq hframes]
  have hgo : (m.goTo (codeLength pre + i.size)).goTo target =
      { m with frames := { frame with ip := target } :: callers } := by rw [goTo_goTo, goTo_eq hframes]
  rw [run_step hframes hcode hip, ← hgo]
  rw [hip] at htarget
  obtain ⟨op, k⟩ := i
  cases op
  case jump =>
    rw [← Option.some.inj htarget]
    exact run_jumpForward hnext k
  case jumpIfFalse =>
    obtain ⟨rest, v, hv, hfalsey⟩ := htaken
    change ((peek 0 >>= _ : Exec Unit).run _) = _
    rw [run_bind_ok (run_peek_zero (hstack.trans hv)), if_pos hfalsey, ← Option.some.inj htarget]
    exact run_jumpForward hnext k
  case jumpIfTrue =>
    obtain ⟨rest, v, hv, hfalsey⟩ := htaken
    change ((peek 0 >>= _ : Exec Unit).run _) = _
    rw [run_bind_ok (run_peek_zero (hstack.trans hv)), if_neg (by rw [hfalsey]; decide), ← Option.some.inj htarget]
    exact run_jumpForward hnext k
  case loop =>
    rw [← Option.some.inj htarget]
    exact run_jumpBack hnext (hback _ _ _ rfl rfl)
  all_goals cases htarget

end Machine

theorem Bytecode.Consists.instructionText?_jump {b : Bytecode} (h : b.Consists (pre ++ i :: post)) (s : Store)
    (htarget : i.target? (codeLength pre) = some target) : b.instructionText? s (codeLength pre) =
      some (padLeft 4 '0' (toString (codeLength pre)) ++ " " ++ b.lineColumn (codeLength pre) ++
        (operandText i.op (codeLength pre) ++ " -> " ++ toString target) ++ "\n") := by
  have hpair := fun hw => h.readPair? (i := i) hw
  obtain ⟨op, k⟩ := i
  have htext : b.operationText? s (codeLength pre) op =
      some (operandText op (codeLength pre) ++ " -> " ++ toString target) := by
    cases op
    case jump => simp [operationText?, hpair rfl, jumpTarget, ← Option.some.inj htarget]
    case jumpIfFalse => simp [operationText?, hpair rfl, jumpTarget, ← Option.some.inj htarget]
    case jumpIfTrue => simp [operationText?, hpair rfl, jumpTarget, ← Option.some.inj htarget]
    case loop => simp [operationText?, hpair rfl, jumpTarget, ← Option.some.inj htarget]
    all_goals cases htarget
  simp [instructionText?, h.opByte, htext]

theorem Function.leads {f : Function} {code : List Instr} (hcode : f.bytecode.Consists code)
    (hback : GoesBackInside code) (s : Store) (heq : code = pre ++ i :: post)
    (htarget : i.target? (codeLength pre) = some target) :
    f.Leads s i.op (codeLength pre) target := by
  subst heq
  refine ⟨hcode.opAt?, fun {m frame callers} hframes hf hip htaken => ?_, hcode.instructionText?_jump s htarget⟩
  subst hf
  exact Machine.run_step_taken hframes hcode hip hback (hip ▸ htarget) htaken

end

/-- Jumps are encoded, taken and listed alike. The jumps in each function that an accepted source is compiled to are those
that have been closed during the compilation, each of them once, and each leads where it was meant to. A source that
breaks no other rule is accepted exactly if none of its jumps goes too far; otherwise the first mistake is that of the
first one that does. -/
theorem compile_jumps (source : String) (store : Store) (printCode : Bool) :
    (∀ {r}, (compile source store printCode).result = .ok r →
      ∃ ds, (TokenStream.ofSource source).Reads ds ∧
        (wholeScript (TokenStream.ofSource source).lexemes.length).run
            (.start (TokenStream.ofSource source) store printCode) =
          (Decl.writeProgram ds).run (.start (TokenStream.ofSource source) store printCode) ∧
        ∀ {g}, (compile source store printCode).store.Contains r g →
          ∃ f is, (compile source store printCode).store.function? g = some f ∧ f.bytecode.Consists is ∧
            (meant g (programJumps (TokenStream.ofSource source) store printCode ds)).Perm (targets 0 is) ∧
            ∀ {pre i post}, is = pre ++ i :: post → i.op.isJump = true →
              ∃ j ∈ programJumps (TokenStream.ofSource source) store printCode ds, j.function = g ∧
                j.place = codeLength pre ∧ (j.back = true ↔ i.op = .loop) ∧
                f.Leads (compile source store printCode).store i.op j.place j.target) ∧
    ∀ {ds}, (TokenStream.ofSource source).IsFaultless → (TokenStream.ofSource source).words = Decl.listWords ds →
      IsProgram ds → IsLegalButJumps ds →
        ((∃ es, (compile source store printCode).result = .error es) ↔
          ∃ j ∈ programJumps (TokenStream.ofSource source) store printCode ds, j.IsFar) ∧
        ∀ j, (programJumps (TokenStream.ofSource source) store printCode ds).find? (·.IsFar) = some j →
          ∃ es, (compile source store printCode).result = .error (j.error :: es) := by
  refine ⟨fun {r} h => ?_, fun hfault hwords hp hl => compile_of_legalButJumps hfault hwords hp hl⟩
  obtain ⟨ds, hreads⟩ := reads_of_ok h
  obtain ⟨r', hr', -, hgains⟩ := compile_of_reads hreads store printCode
  obtain rfl := Except.ok.inj (h.symm.trans hr')
  refine ⟨ds, hreads, run_of_reads hreads store printCode, fun {g} hg => ?_⟩
  obtain ⟨f, is, hf, hcode, hperm⟩ := realizes_programJumps hreads h hg
  have hback : GoesBackInside is := by
    cases hg.sound hgains.sound with
    | function hg' ht _ =>
      obtain ⟨ib, hcompiles, hbody⟩ := ht
      obtain rfl := Option.some.inj (hf.symm.trans hg')
      rw [hcode.unique hcompiles.code]
      exact hbody.goesBackInside.append goesBackInside_returnCode
  refine ⟨f, is, hf, hcode, hperm, fun {pre i post} heq hjump => ?_⟩
  obtain ⟨target, htarget⟩ := Instr.exists_target hjump (codeLength pre)
  have hleads := Function.leads hcode hback (compile source store printCode).store heq htarget
  have hmem : (codeLength pre, target, i.op == .loop) ∈ targets 0 is := by
    refine mem_targets.2 ⟨pre, i, post, heq, ?_⟩
    rw [Nat.zero_add]
    exact ⟨htarget, rfl⟩
  obtain ⟨j, hj, hfunction, hcourse⟩ := mem_meant.1 (hperm.mem_iff.2 hmem)
  obtain ⟨hplace, hrest⟩ := Prod.mk.inj hcourse
  obtain ⟨rfl, hloop⟩ := Prod.mk.inj hrest
  refine ⟨j, hj, hfunction, hplace, ?_, hplace ▸ hleads⟩
  rw [hloop, beq_iff_eq]

/-- A loop with a condition that is a short circuit. -/
theorem compile_jumps_loop :
    ∃ f is, (compile "[: uwu a := 3 untiw a < 1 awnd twue [: a := a - 1 :] :]" {} false).store.function? ⟨0⟩ = some f ∧
      f.bytecode.Consists is ∧ (∀ {pre i post}, is = pre ++ i :: post → i.op.isJump = true →
        ∃ target, f.Leads (compile "[: uwu a := 3 untiw a < 1 awnd twue [: a := a - 1 :] :]" {} false).store i.op
          (codeLength pre) target) ∧
      ∃ ds, (TokenStream.ofSource "[: uwu a := 3 untiw a < 1 awnd twue [: a := a - 1 :] :]").Reads ds ∧
        ∀ j ∈ programJumps (.ofSource "[: uwu a := 3 untiw a < 1 awnd twue [: a := a - 1 :] :]") {} false ds, ¬j.IsFar := by
  have hok : (compile "[: uwu a := 3 untiw a < 1 awnd twue [: a := a - 1 :] :]" {} false).result = .ok ⟨0⟩ := by
    decide +kernel
  have hjumps := compile_jumps "[: uwu a := 3 untiw a < 1 awnd twue [: a := a - 1 :] :]" {} false
  obtain ⟨ds, hreads, -, hfunctions⟩ := hjumps.1 hok
  obtain ⟨f, is, hf, hcode, -, hleads⟩ := hfunctions .self
  refine ⟨f, is, hf, hcode, fun {pre i post} heq hi => ?_, ds, hreads, fun j hj hfar => ?_⟩
  · obtain ⟨j, -, -, hplace, -, hj⟩ := hleads heq hi
    exact ⟨j.target, hplace ▸ hj⟩
  · have hlegal : IsLegalButJumps ds := ⟨hreads.legal.outInFunction, hreads.legal.distinctNames, hreads.legal.ownNameUnread,
      hreads.legal.fewOperands, hreads.legal.fewSlots, hreads.legal.fewConstants, hreads.legal.fewScriptConstants⟩
    obtain ⟨es, hes⟩ := (hjumps.2 hreads.faultless hreads.words hreads.program hlegal).1.2 ⟨j, hj, hfar⟩
    rw [hok] at hes
    cases hes

end StackScript
