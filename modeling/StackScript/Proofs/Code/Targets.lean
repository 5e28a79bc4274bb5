import StackScript.Proofs.Code.Distance
import StackScript.Proofs.Code.Script

/-! Where jumps go. What stands in the code of a function in the end is the jumps that have been closed while it was
compiled, each of them at its place, and it goes where it was meant to go. -/
namespace StackScript
open Compiler

/-! ### Targets of instructions -/

/-- The jumps in code that begins at an offset: where each of them stands, where it goes, and whether that is back. -/
def targets (offset : Nat) : List Instr → List (Nat × Nat × Bool)
  | [] => []
  | i :: is => ((i.target? offset).toList.map fun target => (offset, target, i.op == .loop)) ++ targets (offset + i.size) is

@[simp] theorem targets_nil (n : Nat) : targets n [] = [] := rfl

@[simp] theorem targets_cons (n : Nat) (i : Instr) (is : List Instr) : targets n (i :: is) =
    ((i.target? n).toList.map fun target => (n, target, i.op == .loop)) ++ targets (n + i.size) is := rfl

@[simp] theorem targets_append (n : Nat) (is js : List Instr) :
    targets n (is ++ js) = targets n is ++ targets (n + codeLength is) js := by
  induction is generalizing n with
  | nil => simp
  | cons i is ih => simp [ih, Nat.add_assoc]

theorem mem_targets {n : Nat} {is : List Instr} {x : Nat × Nat × Bool} : x ∈ targets n is ↔
    ∃ pre i post, is = pre ++ i :: post ∧ i.target? (n + codeLength pre) = some x.2.1 ∧
      x = (n + codeLength pre, x.2.1, i.op == .loop) := by
  constructor
  · intro h
    induction is generalizing n with
    | nil => cases h
    | cons i is ih =>
      rcases List.mem_append.1 h with h | h
      · obtain ⟨target, htarget, rfl⟩ := List.mem_map.1 h
        exact ⟨[], i, is, rfl, Option.mem_toList.1 htarget, rfl⟩
      · obtain ⟨pre, j, post, rfl, htarget, heq⟩ := ih h
        refine ⟨i :: pre, j, post, rfl, ?_⟩
        rw [codeLength_cons, ← Nat.add_assoc]
        exact ⟨htarget, heq⟩
  · rintro ⟨pre, i, post, rfl, htarget, heq⟩
    rw [targets_append, targets_cons, htarget, heq]
    simp

/-- The code has no jumps in it. -/
def Jumpless (is : List Instr) : Prop := ∀ i ∈ is, ∀ offset, i.target? offset = none

namespace Jumpless
variable {i : Instr} {is js : List Instr}

theorem nil : Jumpless [] := fun _ hi => nomatch hi

theorem cons (hi : ∀ offset, i.target? offset = none) (h : Jumpless is) : Jumpless (i :: is) :=
  List.forall_mem_cons.2 ⟨hi, h⟩

theorem append (h : Jumpless is) (k : Jumpless js) : Jumpless (is ++ js) := List.forall_mem_append.2 ⟨h, k⟩

theorem pop : Jumpless [⟨.pop, 0⟩] := cons (fun _ => rfl) nil

theorem print : Jumpless [⟨.print, 0⟩] := cons (fun _ => rfl) nil

theorem pops (n : Nat) : Jumpless (Decl.pops n) := by
  intro i hi
  rw [List.eq_of_mem_replicate hi]
  exact fun _ => rfl

theorem returnCode : Jumpless returnCode := cons (fun _ => rfl) (cons (fun _ => rfl) nil)

theorem targets_eq (h : Jumpless is) (n : Nat) : targets n is = [] := by
  induction is generalizing n with
  | nil => rfl
  | cons i is ih =>
    obtain ⟨hi, his⟩ := List.forall_mem_cons.1 h
    rw [targets_cons, hi, ih his]
    rfl

end Jumpless

section
variable {κ : Pool}

theorem Literal.Code.jumpless {l : Literal} {is : List Instr} (h : l.Code κ is) : Jumpless is := by
  cases l with
  | true_ =>
    obtain rfl := h
    exact .cons (fun _ => rfl) .nil
  | false_ =>
    obtain rfl := h
    exact .cons (fun _ => rfl) .nil
  | _ =>
    obtain ⟨i, v, -, -, rfl⟩ := h
    exact .cons (fun _ => rfl) .nil

theorem Home.jumpless (p : Home) : Jumpless [p.get] ∧ Jumpless [p.set] := by
  cases p <;> exact ⟨.cons (fun _ => rfl) .nil, .cons (fun _ => rfl) .nil⟩

theorem Pool.Settles.jumpless {isLocal : Bool} {x : String} {is : List Instr} (h : κ.Settles isLocal x is) :
    Jumpless is := by
  cases isLocal with
  | true =>
    obtain rfl : is = [] := h
    exact .nil
  | false =>
    obtain ⟨i, -, rfl⟩ := h
    exact .cons (fun _ => rfl) .nil

end

namespace Compiler
set_option synthInstance.maxSize 4096

/-! ### What has been meant -/

/-- Where a jump stands, where it is meant to go, and whether that is back. -/
def Jump.course (j : Jump) : Nat × Nat × Bool := (j.place, j.target, j.back)

/-- What the jumps in a function are meant to do. -/
def meant (r : FunctionRef) (js : List Jump) : List (Nat × Nat × Bool) := (js.filter (·.function = r)).map Jump.course

section
variable {r g : FunctionRef} {js ks : List Jump} {j : Jump}

@[simp] theorem meant_nil : meant r [] = [] := rfl

@[simp] theorem meant_append : meant r (js ++ ks) = meant r js ++ meant r ks := by
  simp [meant]

theorem meant_singleton (h : j.function = r) : meant r [j] = [j.course] := by simp [meant, h]

theorem meant_eq_nil (h : ∀ j ∈ js, j.function ≠ r) : meant r js = [] := by
  rw [meant, List.filter_eq_nil_iff.2 fun j hj => by simpa using h j hj]
  rfl

theorem mem_meant {x : Nat × Nat × Bool} : x ∈ meant r js ↔ ∃ j ∈ js, j.function = r ∧ j.course = x := by
  simp [meant, and_assoc]

theorem meant_perm (h : js.Perm ks) (r : FunctionRef) : (meant r js).Perm (meant r ks) := (h.filter _).map _

/-- The function has been compiled, and its jumps are those that were meant. -/
def Realizes (store : Store) (g : FunctionRef) (js : List Jump) : Prop :=
  ∃ f is, store.function? g = some f ∧ f.bytecode.Consists is ∧ (meant g js).Perm (targets 0 is)

/-- The jumps in a piece of code of a function, which begins at an offset, are those that were meant, and so are the
jumps in the functions that are declared there. These are numbered from `first` up to `last`. -/
structure Aims (store : Store) (r : FunctionRef) (first last : Nat) (js : List Jump) (offset : Nat) (is : List Instr) :
    Prop where
  own : (meant r js).Perm (targets offset is)
  inside : ∀ j ∈ js, j.function = r ∨ first ≤ j.function.index ∧ j.function.index < last
  declared : ∀ {k}, first ≤ k → k < last → Realizes store ⟨k⟩ js
  ordered : first ≤ last
  before : last ≤ r.index

namespace Aims
variable {store : Store} {first mid last n k : Nat} {is is' : List Instr} {op : Opcode} {s : State} {f : Function}

theorem perm (h : Aims store r first last js n is) (hjs : js.Perm ks) : Aims store r first last ks n is where
  own := (meant_perm hjs r).symm.trans h.own
  inside j hj := h.inside j (hjs.mem_iff.2 hj)
  declared hf hl := by
    obtain ⟨f, code, hfunction, hcode, hmeant⟩ := h.declared hf hl
    exact ⟨f, code, hfunction, hcode, (meant_perm hjs _).symm.trans hmeant⟩
  ordered := h.ordered
  before := h.before

/-- A function that is declared elsewhere has no jumps there. -/
theorem meant_elsewhere (h : Aims store r first last js n is) {i : Nat} (hi : ¬(first ≤ i ∧ i < last))
    (hr : i < r.index) :
    meant ⟨i⟩ js = [] := by
  refine meant_eq_nil fun j hj heq => ?_
  rcases h.inside j hj with hin | hin
  · rw [← hin, heq] at hr
    exact Nat.lt_irrefl _ hr
  · rw [heq] at hin
    exact hi hin

theorem append (h : Aims store r first mid js n is) (k : Aims store r mid last ks (n + codeLength is) is') :
    Aims store r first last (js ++ ks) n (is ++ is') where
  own := by
    rw [meant_append, targets_append]
    exact h.own.append k.own
  inside j hj := by
    have hh := h.ordered
    have hk := k.ordered
    refine (List.mem_append.1 hj).elim (fun hj => (h.inside j hj).imp_right ?_) fun hj => (k.inside j hj).imp_right ?_
    · exact fun hin => ⟨hin.1, Nat.lt_of_lt_of_le hin.2 hk⟩
    · exact fun hin => ⟨Nat.le_trans hh hin.1, hin.2⟩
  declared {i} hf hl := by
    have hr := Nat.lt_of_lt_of_le hl k.before
    by_cases hi : i < mid
    · obtain ⟨f, code, hfunction, hcode, hmeant⟩ := h.declared hf hi
      refine ⟨f, code, hfunction, hcode, ?_⟩
      rwa [meant_append, k.meant_elsewhere (fun hin => Nat.not_lt_of_le hin.1 hi) hr, List.append_nil]
    · obtain ⟨f, code, hfunction, hcode, hmeant⟩ := k.declared (Nat.le_of_not_lt hi) hl
      refine ⟨f, code, hfunction, hcode, ?_⟩
      rwa [meant_append, h.meant_elsewhere (fun hin => hi hin.2) hr, List.nil_append]
  ordered := Nat.le_trans h.ordered k.ordered
  before := k.before

theorem of_jumpless (h : Jumpless is) (hr : first ≤ r.index) : Aims store r first first [] n is where
  own := by rw [h.targets_eq]; rfl
  inside j hj := nomatch hj
  declared hf hl := absurd hl (Nat.not_lt_of_le hf)
  ordered := Nat.le_refl _
  before := hr

theorem of_instr {i : Instr} (h : targets n [i] = [j.course]) (hj : j.function = r) (hr : first ≤ r.index) :
    Aims store r first first [j] n [i] where
  own := by rw [meant_singleton hj, h]
  inside _ hk := .inl (List.mem_singleton.1 hk ▸ hj)
  declared hf hl := absurd hl (Nat.not_lt_of_le hf)
  ordered := Nat.le_refl _
  before := hr

theorem append_jumpless (h : Aims store r first last js n is) (hj : Jumpless is') :
    Aims store r first last js n (is ++ is') := by
  have hend := h.append (of_jumpless hj h.before)
  rwa [List.append_nil] at hend

/-- A jump forward, and the instruction behind it that drops the condition. -/
theorem forward (hop : op = .jump ∨ op = .jumpIfFalse ∨ op = .jumpIfTrue) (hs : s.draft.bytecode.size = n + 3 + k)
    (hr : first ≤ r.index) : Aims store r first first [.forward r n s] n [⟨op, k⟩, ⟨.pop, 0⟩] := by
  have hjump : Aims store r first first [.forward r n s] n [⟨op, k⟩] := by
    refine of_instr ?_ rfl hr
    rw [Jump.course, Jump.forward, hs]
    obtain rfl | rfl | rfl := hop <;> rfl
  exact hjump.append_jumpless .pop

/-- A jump back, and the instruction behind it that drops the condition. -/
theorem backward {start : Nat} (hs : s.draft.bytecode.size = n) (hstart : n + 3 - k = start) (hr : first ≤ r.index) :
    Aims store r first first [.backward r start s] n [⟨.loop, k⟩, ⟨.pop, 0⟩] := by
  have hjump : Aims store r first first [.backward r start s] n [⟨.loop, k⟩] := by
    refine of_instr ?_ rfl hr
    rw [Jump.course, Jump.backward, hs, ← hstart]
    rfl
  exact hjump.append_jumpless .pop

theorem first_le (h : Aims store r first last js n is) : first ≤ r.index := Nat.le_trans h.ordered h.before

/-- The jumps in a function that is declared are none of the function around it. -/
theorem enclose (h : Aims store ⟨last⟩ first last js 0 is) (hfunction : store.function? ⟨last⟩ = some f)
    (hcode : f.bytecode.Consists is) (hr : last < r.index) (hj : Jumpless is') :
    Aims store r first (last + 1) js n is' where
  own := by
    rw [hj.targets_eq, meant_eq_nil]
    rintro j hj rfl
    rcases h.inside j hj with hin | hin
    · rw [hin] at hr
      exact absurd hr (Nat.lt_irrefl _)
    · omega
  inside j hj := by
    have hordered := h.ordered
    refine .inr ?_
    rcases h.inside j hj with hin | hin
    · rw [hin]
      exact ⟨hordered, Nat.lt_succ_self _⟩
    · exact ⟨hin.1, Nat.lt_succ_of_lt hin.2⟩
  declared hf hl := by
    rcases Nat.lt_succ_iff_lt_or_eq.1 hl with hl | rfl
    · exact h.declared hf hl
    · exact ⟨f, is, hfunction, hcode, h.own⟩
  ordered := Nat.le_succ_of_le h.ordered
  before := hr

end Aims
end

/-! ### How far the code is -/

/-- What is known of a state, and how much code there is. -/
structure Standing (c : Context) (n : Nat) (s : State) : Prop where
  describes : Describes c s
  size : s.draft.bytecode.size = n

section
variable {c d : Context} {n k : Nat} {s t : State} {is : List Instr}

theorem Emits.standing (h : Emits d is s t) (hs : Standing c n s) : Standing d (n + codeLength is) t :=
  ⟨h.describes, by rw [h.wrote.size, hs.size]⟩

theorem Yields.standing {shape : Pool → List Instr → Prop} (h : Yields d shape s t) (hs : Standing c n s)
    (hk : ∀ {κ is}, shape κ is → codeLength is = k) : Standing d (n + k) t := by
  obtain ⟨is, ht, hshape⟩ := h
  exact hk hshape ▸ ht.standing hs

namespace Standing

theorem after_advance (h : Standing c n s) : Standing c n s.advance := h.describes.emits_advance.standing h

theorem after_emit (h : Standing c n s) (op : Opcode) (hop : op.width = 0) :
    Standing c (n + 1) ((emit op).run s).2 := by
  have ht := ((effect_emit h.describes hop).result trivial).standing h
  rwa [codeLength_cons, Instr.size, hop] at ht

theorem after_openJump (h : Standing c n s) (op : Opcode) (hop : op.width = 2) :
    Standing c (n + 3) ((openJump op).run s).2 := by
  have ht := ((effect_openJump h.describes hop).result trivial).2.standing h
  rwa [codeLength_cons, Instr.size, hop] at ht

theorem after_expr {e : Expr} (h : Standing c n s) (hw : AllSpelled e.words) (ha : e.Admitted c) :
    Standing (e.after c) (n + e.size) (e.write.run s).2 :=
  ((effect_write_expr e hw h.describes).result ha).standing h fun he => he.size

theorem after_print {e : Expr} (h : Standing c n s) (hw : AllSpelled e.words) (ha : e.Admitted c) :
    Standing (e.after c) (n + (e.size + 1)) ((do e.write; emit .print : Action Unit).run s).2 := by
  rw [run_bind]
  exact (h.after_expr hw ha).after_emit _ rfl

theorem after_argument {e : Expr} (h : Standing c n s) (hw : AllSpelled e.words) (ha : e.Admitted c) (count : Nat)
    (hcount : count < 255) (es : List Expr) : ((Expr.writeArgument count e es).run s).1 = count + 1 ∧
      Standing (e.after c) (n + e.size) ((Expr.writeArgument count e es).run s).2 := by
  have ht := h.after_expr hw ha
  obtain ⟨hnext, -, hu⟩ := (effect_countArgument ht.describes count (Nat.le_of_lt hcount)).result (Nat.ne_of_lt hcount)
  have hv := ((effect_readComma (hu.standing ht).describes es).result trivial).standing (hu.standing ht)
  rw [Expr.writeArgument, run_bind, run_bind, run_bind]
  exact ⟨hnext, hv⟩

end Standing
end

/-! ### Expressions -/

section
variable {store : Store} {κ : Pool} {r : FunctionRef} {first : Nat} {op : Opcode}

theorem aims_across {c : Context} {n k : Nat} {s : State} (h : Standing c n s)
    (hop : op = .jumpIfFalse ∨ op = .jumpIfTrue) {right : Action Unit} {jumps : State → List Jump} {ir : List Instr}
    (hr : first ≤ r.index) (hright : ∀ {t}, Standing c (n + 4) t →
      Aims store r first first (jumps t) (n + 4) ir ∧ (right.run t).2.draft.bytecode.size = n + 4 + k) :
    Aims store r first first (jumpsAcross r op right jumps s) n (⟨op, k + 1⟩ :: ⟨.pop, 0⟩ :: ir) := by
  have hwidth : op.width = 2 := by obtain rfl | rfl := hop <;> rfl
  obtain ⟨hjumps, hend⟩ := hright ((h.after_openJump op hwidth).after_emit .pop rfl)
  have hskip : Aims store r first first [.forward r n (right.run ((emit .pop).run ((openJump op).run s).2).2).2] n
      [⟨op, k + 1⟩, ⟨.pop, 0⟩] := .forward (.inr hop) (hend.trans (by omega)) hr
  have hsize : n + codeLength [⟨op, k + 1⟩, ⟨.pop, 0⟩] = n + 4 := by
    rw [codeLength_cons, Instr.size, hwidth]
    rfl
  rw [← hsize] at hjumps
  rw [jumpsAcross, h.size, run_bind]
  exact (hskip.append hjumps).perm List.perm_append_comm

mutual

theorem aims_expr (e : Expr) (hw : AllSpelled e.words) {c : Context} {n : Nat} {s : State} (h : Standing c n s)
    (ha : e.Admitted c) {is : List Instr} (hc : e.Code κ c.scope.names is) (hr : first ≤ r.index) :
    Aims store r first first (e.jumps r s) n is := by
  cases e with
  | literal l => exact .of_jumpless (Literal.Code.jumpless hc) hr
  | name x =>
    obtain ⟨p, -, rfl⟩ := hc
    exact .of_jumpless p.jumpless.1 hr
  | group e =>
    exact aims_expr e (hw.of_subset Expr.words_subset_group) h.after_advance (Expr.admitted_group.1 ha) hc hr
  | assign x value =>
    obtain ⟨p, iv, -, hv, rfl⟩ := hc
    obtain ⟨hname, hav⟩ := Expr.admitted_assign.1 ha
    have ht := ((effect_accessTo h.after_advance.describes x).result hname).1.standing h.after_advance
    exact (aims_expr value (hw.of_subset Expr.words_subset_assign) ht.after_advance hav hv hr).append_jumpless
      p.jumpless.2
  | unary op e =>
    obtain ⟨ie, he, rfl⟩ := hc
    have hwe : AllSpelled e.words := hw.of_subset Expr.words_subset_unary
    refine (aims_expr e hwe h.after_advance (Expr.admitted_unary.1 ha) he hr).append_jumpless ?_
    exact .cons (by cases op <;> exact fun _ => rfl) .nil
  | binary op left right =>
    obtain ⟨il, ir, hl, hright, rfl⟩ := hc
    obtain ⟨hal, har⟩ := Expr.admitted_binary.1 ha
    have hwl : AllSpelled left.words := hw.of_subset Expr.words_subset_binary.1
    have ht := (h.after_expr hwl hal).after_advance
    rw [← hl.size] at ht
    refine (aims_expr left hwl h hal hl hr).append ((aims_expr right (hw.of_subset Expr.words_subset_binary.2) ht har
      hright hr).append_jumpless ?_)
    exact .cons (by cases op <;> exact fun _ => rfl) .nil
  | and left right =>
    obtain ⟨il, ir, hl, hright, rfl⟩ := hc
    obtain ⟨hal, har, -⟩ := Expr.admitted_and.1 ha
    have hwl : AllSpelled left.words := hw.of_subset Expr.words_subset_and.1
    have hwr : AllSpelled right.words := hw.of_subset Expr.words_subset_and.2
    have ht := (h.after_expr hwl hal).after_advance
    rw [← hl.size] at ht
    exact (aims_expr left hwl h hal hl hr).append (aims_across ht (.inl rfl) hr fun hu =>
      ⟨aims_expr right hwr hu har hright hr, (hu.after_expr hwr har).size⟩)
  | or left right =>
    obtain ⟨il, ir, hl, hright, rfl⟩ := hc
    obtain ⟨hal, har, -⟩ := Expr.admitted_or.1 ha
    have hwl : AllSpelled left.words := hw.of_subset Expr.words_subset_or.1
    have hwr : AllSpelled right.words := hw.of_subset Expr.words_subset_or.2
    have ht := (h.after_expr hwl hal).after_advance
    rw [← hl.size] at ht
    exact (aims_expr left hwl h hal hl hr).append (aims_across ht (.inr rfl) hr fun hu =>
      ⟨aims_expr right hwr hu har hright hr, (hu.after_expr hwr har).size⟩)
  | call callee arguments =>
    obtain ⟨ic, ia, hcallee, harguments, rfl⟩ := hc
    obtain ⟨hac, haa, hcount⟩ := Expr.admitted_call.1 ha
    have hwc : AllSpelled callee.words := hw.of_subset Expr.words_subset_call.1
    have ht := (h.after_expr hwc hac).after_advance
    rw [← hcallee.size] at ht
    refine (aims_expr callee hwc h hac hcallee hr).append ((aims_arguments arguments
      (hw.of_subset Expr.words_subset_call.2) ht haa hcount harguments hr).append_jumpless ?_)
    exact .cons (fun _ => rfl) .nil

theorem aims_arguments (es : List Expr) (hw : AllSpelled (Expr.argumentWords es)) {c : Context} {n : Nat} {s : State}
    (h : Standing c n s) (ha : Expr.AllAdmitted c es) {count : Nat} (hcount : count + es.length ≤ 255) {is : List Instr}
    (hc : Expr.AllCode κ c.scope.names es is) (hr : first ≤ r.index) :
    Aims store r first first (Expr.argumentJumps r count s es) n is := by
  cases es with
  | nil =>
    obtain rfl := hc
    exact .of_jumpless .nil hr
  | cons e es =>
    obtain ⟨ie, js, he, hs, rfl⟩ := hc
    obtain ⟨hae, haes⟩ := Expr.allAdmitted_cons.1 ha
    have hwe : AllSpelled e.words := hw.of_subset Expr.words_subset_arguments.1
    rw [List.length_cons] at hcount
    obtain ⟨hnext, ht⟩ := h.after_argument hwe hae count (by omega) es
    rw [← he.size] at ht
    refine (aims_expr e hwe h hae he hr).append ?_
    exact aims_arguments es (hw.of_subset Expr.words_subset_arguments.2) ht haes (by omega) hs hr

end

/-- The jumps in an expression that is printed, and those behind it. -/
theorem aims_printed (e : Expr) (hw : AllSpelled e.words) {c : Context} {n : Nat} {s : State} (h : Standing c n s)
    (ha : e.Admitted c) {ie js : List Instr} (hc : e.Code κ c.scope.names ie) (hr : first ≤ r.index)
    {g : State → List Jump} (hrest : ∀ {t}, Standing (e.after c) (n + (e.size + 1)) t →
      Aims store r first first (g t) (n + (e.size + 1)) js) :
    Aims store r first first (e.jumps r s ++ g ((do e.write; emit .print : Action Unit).run s).2) n
      (ie ++ ⟨.print, 0⟩ :: js) := by
  have hsize : codeLength (ie ++ [⟨.print, 0⟩]) = e.size + 1 := by
    rw [codeLength_append, hc.size]
    rfl
  have hbehind := hrest (h.after_print hw ha)
  rw [← hsize] at hbehind
  have hall := ((aims_expr e hw h ha hc hr).append_jumpless .print).append hbehind
  rwa [List.append_assoc] at hall

theorem aims_items (es : List Expr) (hw : AllSpelled (itemWords es)) {c : Context} {n : Nat} {s : State}
    (h : Standing c n s) (ha : Expr.AllAdmitted c es) {is : List Instr} (hc : Expr.ItemsCode κ c.scope.names es is)
    (hr : first ≤ r.index) : Aims store r first first (Expr.itemJumps r s es) n is := by
  induction es generalizing c n s is with
  | nil =>
    obtain rfl := hc
    exact .of_jumpless .nil hr
  | cons e es ih =>
    obtain ⟨ie, js, he, hs, rfl⟩ := hc
    obtain ⟨hae, haes⟩ := Expr.allAdmitted_cons.1 ha
    have hwe : AllSpelled e.words := hw.of_subset words_subset_items.1
    have hws : AllSpelled (itemWords es) := hw.of_subset words_subset_items.2
    exact aims_printed (g := fun t => Expr.itemJumps r t es) e hwe h.after_advance hae he hr fun ht => ih hws ht haes hs

end

/-! ### Blocks -/

theorem draft_loopDistance (distance : Nat) (s : State) : ((loopDistance distance).run s).2.draft = s.draft := by
  unfold loopDistance
  split
  · rfl
  · change (s.report _ _ _).draft = _
    unfold State.report
    split <;> rfl

theorem size_emitBackJump (start : Nat) (s : State) :
    ((emitBackJump start).run s).2.draft.bytecode.size = s.draft.bytecode.size + 3 := by
  have hbyte : ∀ (byte : UInt8) (t : State), (t.emitByte byte).draft.bytecode.size = t.draft.bytecode.size + 1 := by
    intro byte t
    simp [State.emitByte]
  obtain ⟨defect, hensure⟩ := exists_ensure (start ≤ s.draft.bytecode.size + 1) .loopInCode
    (s.emitByte Opcode.loop.toByte)
  rw [emitBackJump, run_bind, run_emit, run_bind, run_codeSize, run_bind, hbyte, hensure, run_bind, run_codeSize,
    run_bind]
  change ((State.emitByte _ _).emitByte _).draft.bytecode.size = _
  rw [hbyte, hbyte, draft_loopDistance]
  exact congrArg (· + 2) (hbyte _ s)

section
variable {store : Store} {r : FunctionRef} {first m last n k : Nat} {op : Opcode} {c : Context} {s u : State}
  {ds : List Decl} {ib rest : List Instr} {js : List Jump}

namespace Standing

theorem after_enterScope (h : Standing c n s) (hp : c.pending = none) : Standing c.enter n (enterScope.run s).2 :=
  ((effect_enterScope h.describes hp).result trivial).standing h

theorem after_block (h : Standing c n s) (hds : Writes c.enter ds) (hp : c.pending = none)
    (ha : Decl.ListAdmitted c.enter ds) :
    Standing (c.afterBlock ds) (n + Decl.blockSize ds) ((Decl.writeBlock (Decl.writeList ds)).run s).2 :=
  ((effect_writeBlock hds hp h.describes).result ha).standing h BlockCode.size

theorem after_enterGuarded (h : Standing c n s) (op : Opcode) (hop : op.width = 2) (hp : c.pending = none) :
    Standing c.enter (n + 4) ((Decl.enterGuarded op).run s).2 := by
  rw [run_enterGuarded]
  exact ((h.after_openJump op hop).after_emit _ rfl).after_advance.after_enterScope hp

theorem after_writeGuarded (h : Standing c n s) (op : Opcode) (hop : op.width = 2) (hds : Writes c.enter ds)
    (hp : c.pending = none) (ha : Decl.ListAdmitted c.enter ds) :
    Standing (c.afterBlock ds) (n + 4 + Decl.blockSize ds) ((Decl.writeGuarded op ds).run s).2 := by
  rw [run_writeGuarded]
  exact ((h.after_openJump op hop).after_emit _ rfl).after_advance.after_block hds hp ha

/-- Behind the first block of a conditional statement. -/
theorem after_thenBlock (h : Standing c n s) (hds : Writes c.enter ds) (hp : c.pending = none)
    (ha : Decl.ListAdmitted c.enter ds) (hle : Decl.blockSize ds + 4 ≤ maxDistance) {p : Nat × State}
    (hwrite : (Decl.writeGuarded .jumpIfFalse ds).run s = p) : Standing (c.afterBlock ds) (n + Decl.blockSize ds + 8)
      ((do closeJump p.1; emit .pop : Action Unit).run ((openJump .jump).run p.2).2).2 := by
  rw [run_writeGuarded] at hwrite
  subst hwrite
  obtain ⟨hplace, ht⟩ := (effect_openJump h.describes (show Opcode.jumpIfFalse.width = 2 from rfl)).result trivial
  have hu := (effect_emit ht.describes (show Opcode.pop.width = 0 from rfl)).result trivial
  have hv := hu.describes.emits_advance
  obtain ⟨is, hw, hcode⟩ := (effect_writeBlock hds hp hv.describes).result ha
  have hx := ((effect_openJump hw.describes (show Opcode.jump.width = 2 from rfl)).result trivial).2
  have hjump := ht.trans (hu.trans (hv.trans (hw.trans hx)))
  simp only [List.cons_append, List.nil_append] at hjump
  have hsize : codeLength (⟨.pop, 0⟩ :: (is ++ [⟨.jump, maxDistance⟩])) = Decl.blockSize ds + 4 := by
    simp only [codeLength_cons, codeLength_append, codeLength_nil, hcode.size, Instr.size, Opcode.width]
    omega
  obtain ⟨hclosed, -⟩ := (effect_closeJump [] _ rfl hjump hplace).result (hsize ▸ hle)
  have hend := (hclosed.standing h).after_emit .pop rfl
  have hsum : n + (Instr.size ⟨.jumpIfFalse, Decl.blockSize ds + 4⟩ + (Decl.blockSize ds + 4)) + 1 =
      n + Decl.blockSize ds + 8 := by
    simp only [Instr.size, Opcode.width]
    omega
  rw [List.nil_append, codeLength_cons, hsize, hsum] at hend
  rw [run_bind]
  exact hend

end Standing

/-- The jumps in a block that is jumped over, the jump over it, and those behind it. -/
theorem aims_guarded (h : Standing c n s) (hop : op = .jumpIfFalse ∨ op = .jumpIfTrue) (hp : c.pending = none)
    (hu : u.draft.bytecode.size = n + 3 + k) (hr : first ≤ r.index) (hbody : ∀ {t}, Standing c.enter (n + 4) t →
      Aims store r first m (Decl.listJumps r first t ds) (n + 4) ib)
    (hsize : codeLength (ib ++ Decl.pops (Decl.listDeclared ds).length) = Decl.blockSize ds)
    (hrest : Aims store r m last js (n + 4 + Decl.blockSize ds) rest) :
    Aims store r first last (Decl.listJumps r first ((Decl.enterGuarded op).run s).2 ds ++ .forward r n u :: js) n
      (⟨op, k⟩ :: ⟨.pop, 0⟩ :: (ib ++ Decl.pops (Decl.listDeclared ds).length ++ rest)) := by
  have hwidth : op.width = 2 := by obtain rfl | rfl := hop <;> rfl
  have hskip : Aims store r first first [.forward r n u] n [⟨op, k⟩, ⟨.pop, 0⟩] := .forward (.inr hop) hu hr
  have hfour : n + codeLength [⟨op, k⟩, ⟨.pop, 0⟩] = n + 4 := by
    rw [codeLength_cons, Instr.size, hwidth]
    rfl
  have hinside := (hbody (h.after_enterGuarded op hwidth hp)).append_jumpless (.pops (Decl.listDeclared ds).length)
  rw [← hsize] at hrest
  have hall := hinside.append hrest
  rw [← hfour] at hall
  -- the jump over the block stands before it and is closed behind it
  refine Aims.perm ?_ List.perm_middle.symm
  exact hskip.append hall

end

/-! ### Declarations -/

section
variable {store : Store}

mutual

theorem aims_write (d : Decl) (hw : AllSpelled d.words) {c : Context} {n : Nat} {s : State} (hp : c.pending = none)
    (h : Standing c n s) (ha : d.Admitted c) {constants : Array Value} {is : List Instr}
    (hd : d.Code ⟨constants, store⟩ c.scope c.functions is) {r : FunctionRef}
    (hr : c.functions + d.functionCount ≤ r.index) :
    Aims store r c.functions (c.functions + d.functionCount) (d.jumps r c.functions s) n is := by
  have hfirst : c.functions ≤ r.index := Nat.le_trans (Nat.le_add_right _ _) hr
  cases d with
  | expression e =>
    obtain ⟨ie, he, rfl⟩ := hd
    exact (aims_expr e hw h ((Decl.admitted_expression hp).1 ha) he hfirst).append_jumpless .pop
  | print e es =>
    obtain ⟨ie, js, he, hs, rfl⟩ := hd
    obtain ⟨hae, haes⟩ := (Decl.admitted_print hp).1 ha
    have hwe : AllSpelled e.words := hw.of_subset Decl.words_subset_print.1
    have hws : AllSpelled (itemWords es) := hw.of_subset Decl.words_subset_print.2
    exact aims_printed (g := fun t => Expr.itemJumps r t es) e hwe h.after_advance hae he hfirst fun ht =>
      aims_items es hws ht haes hs hfirst
  | read form x =>
    obtain ⟨p, -, rfl⟩ := hd
    have hread : ∀ offset, Instr.target? ⟨form.opcode, 0⟩ offset = none := by cases form <;> exact fun _ => rfl
    exact .of_jumpless (.cons hread (.append p.jumpless.2 .pop)) hfirst
  | if_ e ds =>
    obtain ⟨ic, ib, hc, hb, rfl⟩ := hd
    obtain ⟨hae, hads, hle⟩ := (Decl.admitted_if hp).1 ha
    have hwe : AllSpelled e.words := hw.of_subset Decl.words_subset_if.1
    have hwd : AllSpelled (Decl.listWords ds) := hw.of_subset Decl.words_subset_if.2
    have hds : Writes (e.after c).enter ds := writes_enter (c := e.after c) hwd hp
    have ht := h.after_advance.after_expr hwe hae
    have hu := ht.after_writeGuarded .jumpIfFalse rfl hds hp hads
    have hv := hu.after_openJump .jump rfl
    have hend := ht.after_thenBlock hds hp hads hle rfl
    rw [← hc.size] at ht hu hv hend
    dsimp only [Decl.jumps]
    rw [ht.size, hu.size]
    refine (aims_expr e hwe h.after_advance hae hc hfirst).append
      (aims_guarded (m := c.functions + Decl.listFunctionCount ds)
      ht (.inl rfl) hp (hv.size.trans (by omega)) hfirst ?_ (BlockCode.size (c := e.after c) ⟨ib, hb, rfl⟩) ?_)
    · exact fun hx => aims_writeList ds hwd (c := (e.after c).enter) hp hx (fun _ => List.nodup_nil) hads hb hr
    · exact .forward (.inl rfl) (hend.size.trans (by omega)) hr
  | ifElse e ds es =>
    obtain ⟨ic, ib, ia, hc, hb, hi, rfl⟩ := hd
    obtain ⟨hae, hads, hle, haes, -⟩ := (Decl.admitted_ifElse hp).1 ha
    have hwe : AllSpelled e.words := hw.of_subset Decl.words_subset_ifElse.1
    have hwd : AllSpelled (Decl.listWords ds) := hw.of_subset Decl.words_subset_ifElse.2.1
    have hws : AllSpelled (Decl.listWords es) := hw.of_subset Decl.words_subset_ifElse.2.2
    have hds : Writes (e.after c).enter ds := writes_enter (c := e.after c) hwd hp
    have hes : Writes ((e.after c).afterBlock ds).enter es := writes_enter (c := (e.after c).afterBlock ds) hws rfl
    rw [Decl.functionCount, ← Nat.add_assoc] at hr ⊢
    have ht := h.after_advance.after_expr hwe hae
    have hu := ht.after_writeGuarded .jumpIfFalse rfl hds hp hads
    have hv := hu.after_openJump .jump rfl
    have hx := (ht.after_thenBlock hds hp hads hle rfl).after_advance.after_advance
    have hy := hx.after_enterScope rfl
    have hend := hx.after_block hes rfl haes
    rw [← hc.size] at ht hu hv hx hy hend
    have hsize : codeLength (ia ++ Decl.pops (Decl.listDeclared es).length) = Decl.blockSize es :=
      BlockCode.size (c := (e.after c).afterBlock ds) ⟨ia, hi, rfl⟩
    have hbehind : n + codeLength ic + 4 + Decl.blockSize ds + codeLength [⟨.jump, Decl.blockSize es + 1⟩, ⟨.pop, 0⟩] =
        n + codeLength ic + Decl.blockSize ds + 8 := by
      simp only [codeLength_cons, codeLength_nil, Instr.size, Opcode.width]
      omega
    have hother := (aims_writeList es hws (c := ((e.after c).afterBlock ds).enter) rfl hy (fun _ => List.nodup_nil)
      haes hi
      hr).append_jumpless (.pops (Decl.listDeclared es).length)
    rw [← hbehind] at hother
    dsimp only [Decl.jumps]
    rw [ht.size, hu.size]
    refine (aims_expr e hwe h.after_advance hae hc hfirst).append
      (aims_guarded (m := c.functions + Decl.listFunctionCount ds)
      ht (.inl rfl) hp (hv.size.trans (by omega)) hfirst ?_ (BlockCode.size (c := e.after c) ⟨ib, hb, rfl⟩) ?_)
    · exact fun hx => aims_writeList ds hwd (c := (e.after c).enter) hp hx (fun _ => List.nodup_nil) hads hb
        hother.first_le
    · exact ((Aims.forward (.inl rfl) (hend.size.trans (by omega)) hother.first_le).append hother).perm
        List.perm_append_comm
  | until_ e ds =>
    obtain ⟨ic, ib, hc, hb, rfl⟩ := hd
    obtain ⟨hae, hads, hle⟩ := (Decl.admitted_until hp).1 ha
    have hwe : AllSpelled e.words := hw.of_subset Decl.words_subset_until.1
    have hwd : AllSpelled (Decl.listWords ds) := hw.of_subset Decl.words_subset_until.2
    have hds : Writes (e.after c).enter ds := writes_enter (c := e.after c) hwd hp
    have ht := h.after_advance.after_expr hwe hae
    have hu := ht.after_writeGuarded .jumpIfTrue rfl hds hp hads
    have hend := (size_emitBackJump s.advance.draft.bytecode.size ((Decl.writeGuarded .jumpIfTrue ds).run
      (e.write.run s.advance).2).2).trans (congrArg (· + 3) hu.size)
    rw [← hc.size] at ht hu hend
    have hstart : n + codeLength ic + 4 + Decl.blockSize ds + 3 - (e.size + Decl.blockSize ds + 7) =
        s.advance.draft.bytecode.size := by
      rw [h.after_advance.size, hc.size]
      omega
    dsimp only [Decl.jumps]
    rw [ht.size]
    -- the jump out of the loop is closed last
    refine Aims.perm ?_ (((List.Perm.swap _ _ []).append_left _).append_left _)
    refine (aims_expr e hwe h.after_advance hae hc hfirst).append
      (aims_guarded (m := c.functions + Decl.listFunctionCount ds)
      ht (.inr rfl) hp (hend.trans (by omega)) hfirst ?_ (BlockCode.size (c := e.after c) ⟨ib, hb, rfl⟩)
        (.backward hu.size hstart hr))
    exact fun hx => aims_writeList ds hwd (c := (e.after c).enter) hp hx (fun _ => List.nodup_nil) hads hb hr
  | out value =>
    cases value with
    | none =>
      obtain rfl := hd
      exact .of_jumpless .returnCode hfirst
    | some e =>
      obtain ⟨ie, he, rfl⟩ := hd
      obtain ⟨hin, hae⟩ := (Decl.admitted_out_some hp).1 ha
      have hsame := (effect_checkInFunction h.after_advance.describes).result hin
      have hwe : AllSpelled e.words := hw.of_subset Decl.words_subset_out
      change Aims _ _ _ _ (e.jumps r (checkInFunction.run s.advance).2) _ _
      rw [hsame]
      exact (aims_expr e hwe h.after_advance hae he hfirst).append_jumpless (.cons (fun _ => rfl) .nil)
  | block mark ds =>
    obtain ⟨ib, hb, rfl⟩ := hd
    have hwd : AllSpelled (Decl.listWords ds) := hw.of_subset Decl.words_subset_block
    exact (aims_writeList ds hwd (c := c.enter) hp (h.after_advance.after_enterScope hp) (fun _ => List.nodup_nil)
      (Decl.admitted_block.1 ha) hb hr).append_jumpless (.pops _)
  | var x initial =>
    cases initial with
    | none =>
      obtain ⟨js, hj, rfl⟩ := hd
      exact .of_jumpless (.cons (fun _ => rfl) hj.jumpless) hfirst
    | some e =>
      obtain ⟨ie, js, he, hj, rfl⟩ := hd
      obtain ⟨hname, hae⟩ := (Decl.admitted_var_some h.describes.live_le).1 ha
      have ht := ((effect_writeNewName h.after_advance.describes hp x).result hname).1.standing h.after_advance
      have hwe : AllSpelled e.words := hw.of_subset Decl.words_subset_var
      exact (aims_expr e hwe ht.after_advance hae he hfirst).append_jumpless hj.jumpless
  | fun_ x xs ds =>
    obtain ⟨i, g, ib, js, -, hg, hcompiles, hb, hj, rfl⟩ := hd
    obtain ⟨hname, hxs, hads, -⟩ := (Decl.admitted_fun h.describes.live_le).1 ha
    obtain ⟨hdescribes, hsize⟩ := (effect_writeOpening hp h.describes).result ⟨hname, hxs⟩
    have hwd : AllSpelled (Decl.listWords ds) := hw.of_subset Decl.words_subset_fun
    have hbody := (aims_writeList ds hwd (c := c.inside xs) rfl ⟨hdescribes, hsize⟩
      (fun _ => List.nodup_reverse.2 hxs.1) hads
      hb (Nat.le_refl _)).append_jumpless .returnCode
    exact hbody.enclose hg hcompiles.code hr (.cons (fun _ => rfl) hj.jumpless)

theorem aims_writeList (ds : List Decl) (hw : AllSpelled (Decl.listWords ds)) {c : Context} {n : Nat} {s : State}
    (hp : c.pending = none) (h : Standing c n s) (hn : c.scope.isLocal = true → c.scope.inner.Nodup)
    (ha : Decl.ListAdmitted c ds) {constants : Array Value} {is : List Instr}
    (hds : Decl.ListCode ⟨constants, store⟩ c.scope c.functions ds is) {r : FunctionRef}
    (hr : c.functions + Decl.listFunctionCount ds ≤ r.index) :
    Aims store r c.functions (c.functions + Decl.listFunctionCount ds) (Decl.listJumps r c.functions s ds) n is := by
  cases ds with
  | nil =>
    obtain rfl := hds
    exact .of_jumpless .nil hr
  | cons d ds =>
    obtain ⟨id, js, hd, hs, rfl⟩ := hds
    obtain ⟨had, has⟩ := Decl.listAdmitted_cons.1 ha
    have hwd : AllSpelled d.words := hw.of_subset Decl.words_subset_list.1
    have ht := ((effect_write d hwd hp h.describes).result had).standing h fun hd => hd.size
    rw [Decl.listFunctionCount, ← Nat.add_assoc] at hr ⊢
    rw [← hd.size] at ht
    refine (aims_write d hwd hp h had hd (Nat.le_trans (Nat.le_add_right _ _) hr)).append ?_
    exact aims_writeList ds (hw.of_subset Decl.words_subset_list.2) (c := d.after c) rfl ht
      (had.nodup_after hn) has hs hr

end

/-- Each function of an accepted program has the jumps in it that were meant, and no others. -/
theorem realizes_programJumps {source : String} {printCode : Bool} {ds : List Decl} {r g : FunctionRef}
    (hreads : (TokenStream.ofSource source).Reads ds) (h : (compile source store printCode).result = .ok r)
    (hg : (compile source store printCode).store.Contains r g) :
    Realizes (compile source store printCode).store g
      (programJumps (TokenStream.ofSource source) store printCode ds) := by
  obtain ⟨r', hr', -, hgains⟩ := compile_of_reads hreads store printCode
  obtain rfl := Except.ok.inj (h.symm.trans hr')
  obtain ⟨f, hf, ⟨ib, hcompiles, hbody⟩, -⟩ := hgains.compiled
  have hlt : g.index < store.functions.size + Decl.listFunctionCount ds + 1 := by
    cases hg.sound hgains.sound with
    | function hg =>
      rw [← hgains.size]
      exact (Array.getElem?_eq_some_iff.1 hg).1
  obtain rfl := hgains.ref
  have hle := hg.isNew hreads
  have hbegin : Describes { scope := .script, functions := store.functions.size }
      (.start (TokenStream.ofSource source) store printCode) := describes_start hreads.faultless
  have hstart := hbegin.emits_advance
  have hscript := (aims_writeList ds (hreads.words ▸ allSpelled_words source) rfl ⟨hstart.describes, hstart.wrote.size⟩
    (fun _ => List.nodup_singleton _) ((listAdmitted_script store ds).2 hreads.legal) hbody
    (r := ⟨store.functions.size + Decl.listFunctionCount ds⟩) (Nat.le_refl _)).append_jumpless .returnCode
  by_cases hlast : g.index < store.functions.size + Decl.listFunctionCount ds
  · exact hscript.declared hle hlast
  · obtain rfl : g = ⟨store.functions.size + Decl.listFunctionCount ds⟩ :=
      congrArg FunctionRef.mk (Nat.le_antisymm (Nat.le_of_lt_succ hlt) (Nat.le_of_not_lt hlast))
    exact ⟨f, ib ++ returnCode, hf, hcompiles.code, hscript.own⟩

end
end Compiler
end StackScript
