import StackScript.Proofs.Code.Flow

/-! The code of a tree keeps to its heights: an expression leaves one value more on the stack, and a
declaration leaves the local variables that it declares. -/
namespace StackScript
open Compiler

/-! ### What code leaves on the stack -/

theorem height_get (p : Home) (h : Nat) : p.get.next h = h + 1 := by cases p <;> rfl

theorem height_set (p : Home) (h : Nat) : p.set.next (h + 1) = h + 1 := by cases p <;> rfl

theorem Literal.Code.height {κ : Pool} {l : Literal} {is : List Instr} (h : l.Code κ is) (n : Nat) :
    heightOf n is = n + 1 := by
  cases l with
  | true_ =>
    obtain rfl := h
    rfl
  | false_ =>
    obtain rfl := h
    rfl
  | _ =>
    obtain ⟨i, v, -, -, rfl⟩ := h
    rfl

namespace Expr
variable {κ : Pool} {names : List String}

mutual

theorem Code.height (e : Expr) (is : List Instr) (h : e.Code κ names is) (n : Nat) : heightOf n is = n + 1 := by
  cases e with
  | literal l => exact Literal.Code.height h n
  | name x =>
    obtain ⟨p, -, rfl⟩ := h
    exact height_get p n
  | group e => exact Code.height e is h n
  | assign x value =>
    obtain ⟨p, iv, -, hv, rfl⟩ := h
    rw [heightOf_append, Code.height value iv hv]
    exact height_set p n
  | unary op e =>
    obtain ⟨ie, he, rfl⟩ := h
    rw [heightOf_append, Code.height e ie he]
    cases op <;> rfl
  | binary op left right =>
    obtain ⟨il, ir, hl, hr, rfl⟩ := h
    rw [heightOf_append, heightOf_append, Code.height left il hl, Code.height right ir hr]
    cases op <;> rfl
  | and left right =>
    obtain ⟨il, ir, hl, hr, rfl⟩ := h
    rw [heightOf_append, Code.height left il hl, heightOf_cons, heightOf_cons, Code.height right ir hr]
    rfl
  | or left right =>
    obtain ⟨il, ir, hl, hr, rfl⟩ := h
    rw [heightOf_append, Code.height left il hl, heightOf_cons, heightOf_cons, Code.height right ir hr]
    rfl
  | call callee arguments =>
    obtain ⟨ic, ia, hc, ha, rfl⟩ := h
    rw [heightOf_append, heightOf_append, Code.height callee ic hc, AllCode.height arguments ia ha]
    simp only [heightOf_cons, heightOf_nil, Instr.next, Instr.takes, Instr.gives]
    omega

theorem AllCode.height (es : List Expr) (is : List Instr) (h : AllCode κ names es is) (n : Nat) :
    heightOf n is = n + es.length := by
  cases es with
  | nil =>
    obtain rfl := h
    rfl
  | cons e es =>
    obtain ⟨ie, js, he, hs, rfl⟩ := h
    rw [heightOf_append, Code.height e ie he, AllCode.height es js hs, List.length_cons]
    omega

end

theorem ItemsCode.height (es : List Expr) (is : List Instr) (h : ItemsCode κ names es is) (n : Nat) :
    heightOf n is = n := by
  induction es generalizing is with
  | nil =>
    obtain rfl := h
    rfl
  | cons e es ih =>
    obtain ⟨ie, js, he, hs, rfl⟩ := h
    rw [heightOf_append, he.height, heightOf_cons]
    exact ih js hs

end Expr

namespace Decl
variable {κ : Pool}

@[simp] theorem height_pops (k n : Nat) : heightOf (n + k) (pops k) = n := by
  induction k generalizing n with
  | zero => rfl
  | succ k ih =>
    rw [pops, List.replicate_succ, heightOf_cons]
    exact ih n

/-- How many variables on the stack a declaration adds. -/
def newSlots (isLocal : Bool) (names : List String) : Nat := if isLocal then names.length else 0

@[simp] theorem newSlots_nil (isLocal : Bool) : newSlots isLocal [] = 0 := by cases isLocal <;> rfl

theorem newSlots_append (isLocal : Bool) (xs ys : List String) :
    newSlots isLocal (xs ++ ys) = newSlots isLocal xs + newSlots isLocal ys := by
  cases isLocal
  · rfl
  · exact List.length_append

theorem height_settles {isLocal : Bool} {x : String} {js : List Instr} (h : κ.Settles isLocal x js) (n : Nat) :
    heightOf (n + 1) js = n + newSlots isLocal [x] := by
  cases isLocal with
  | true =>
    obtain rfl : js = [] := h
    rfl
  | false =>
    obtain ⟨i, -, rfl⟩ := h
    rfl

theorem height_block {body : List Instr} {ds : List Decl} {n : Nat}
    (h : heightOf n body = n + newSlots true (listDeclared ds)) :
    heightOf n (body ++ pops (listDeclared ds).length) = n := by
  rw [heightOf_append, h]
  exact height_pops _ n

mutual

theorem Code.height (σ : Scope) (first : Nat) (d : Decl) (is : List Instr) (h : d.Code κ σ first is) (n : Nat) :
    heightOf n is = n + newSlots σ.isLocal d.declared := by
  cases d with
  | expression e =>
    obtain ⟨ie, he, rfl⟩ := h
    rw [heightOf_append, he.height]
    cases σ.isLocal <;> rfl
  | print e es =>
    obtain ⟨ie, js, he, hs, rfl⟩ := h
    rw [heightOf_append, he.height, heightOf_cons, hs.height]
    cases σ.isLocal <;> rfl
  | read form x =>
    obtain ⟨p, -, rfl⟩ := h
    cases form <;> cases p <;> cases σ.isLocal <;> rfl
  | if_ condition body =>
    obtain ⟨ic, ib, hc, hb, rfl⟩ := h
    have hblock := height_block (ListCode.height _ _ body ib hb n)
    rw [heightOf_append, hc.height]
    show heightOf n (ib ++ pops _ ++ _) = _
    rw [heightOf_append, hblock]
    cases σ.isLocal <;> rfl
  | ifElse condition body alternative =>
    obtain ⟨ic, ib, ia, hc, hb, ha, rfl⟩ := h
    have hblock := height_block (ListCode.height _ _ body ib hb n)
    have hother := height_block (ListCode.height _ _ alternative ia ha n)
    rw [heightOf_append, hc.height]
    show heightOf n (ib ++ pops _ ++ _) = _
    rw [heightOf_append, hblock]
    show heightOf n (ia ++ pops _) = _
    rw [hother]
    cases σ.isLocal <;> rfl
  | until_ condition body =>
    obtain ⟨ic, ib, hc, hb, rfl⟩ := h
    have hblock := height_block (ListCode.height _ _ body ib hb n)
    rw [heightOf_append, hc.height]
    show heightOf n (ib ++ pops _ ++ _) = _
    rw [heightOf_append, hblock]
    cases σ.isLocal <;> rfl
  | out value =>
    cases value with
    | none =>
      obtain rfl := h
      cases σ.isLocal <;> rfl
    | some e =>
      obtain ⟨ie, he, rfl⟩ := h
      rw [heightOf_append, he.height]
      cases σ.isLocal <;> rfl
  | block mark body =>
    obtain ⟨ib, hb, rfl⟩ := h
    rw [height_block (ListCode.height _ _ body ib hb n)]
    cases σ.isLocal <;> rfl
  | var x initial =>
    cases initial with
    | none =>
      obtain ⟨js, hj, rfl⟩ := h
      exact height_settles hj n
    | some e =>
      obtain ⟨ie, js, he, hj, rfl⟩ := h
      rw [heightOf_append, he.height]
      exact height_settles hj n
  | fun_ x parameters body =>
    obtain ⟨i, f, ib, js, -, -, -, -, hj, rfl⟩ := h
    exact height_settles hj n

theorem ListCode.height (σ : Scope) (first : Nat) (ds : List Decl) (is : List Instr) (h : ListCode κ σ first ds is)
    (n : Nat) : heightOf n is = n + newSlots σ.isLocal (listDeclared ds) := by
  cases ds with
  | nil =>
    obtain rfl := h
    rw [listDeclared_nil, newSlots_nil]
    rfl
  | cons d ds =>
    obtain ⟨id, js, hd, hs, rfl⟩ := h
    rw [heightOf_append, Code.height σ first d id hd, ListCode.height _ _ ds js hs, Scope.isLocal_after,
      listDeclared_cons, newSlots_append, Nat.add_assoc]

end
end Decl

/-! ### Where jumps go -/

section Jumps
variable {κ : Pool} {code pre js post : List Instr} {start floor : Nat}

/-- A jump over code that brings the stack back to its height. -/
theorem Instr.Flows.forward {op : Opcode} (hop : op = .jump ∨ op = .jumpIfFalse ∨ op = .jumpIfTrue)
    (hcode : code = pre ++ (⟨op, codeLength js⟩ :: (js ++ post))) (hpost : post ≠ [])
    (ht : floor + Instr.takes ⟨op, codeLength js⟩ ≤ heightOf start pre)
    (hh : heightOf (heightOf start pre) (⟨op, codeLength js⟩ :: js) = heightOf start pre) :
    Instr.Flows κ code start floor pre ⟨op, codeLength js⟩ := by
  refine ⟨?_, ht, fun {n} hn => ⟨pre ++ ⟨op, codeLength js⟩ :: js, post, by simp [hcode], hpost, ?_, ?_⟩⟩
  · obtain rfl | rfl | rfl := hop <;> trivial
  · have hn : codeLength pre + 3 + codeLength js = n := by
      obtain rfl | rfl | rfl := hop <;> exact Option.some.inj hn
    have hsize : Instr.size ⟨op, codeLength js⟩ = 3 := by obtain rfl | rfl | rfl := hop <;> rfl
    rw [codeLength_append, codeLength_cons, hsize, ← hn, Nat.add_assoc]
  · rw [heightOf_append, hh]

/-- A jump back over code that keeps the height of the stack. -/
theorem Instr.Flows.back (post : List Instr) (hcode : code = pre ++ (js ++ ⟨.loop, codeLength js + 3⟩ :: post))
    (ht : floor ≤ heightOf start (pre ++ js)) (hh : heightOf start (pre ++ js) = heightOf start pre) :
    Instr.Flows κ code start floor (pre ++ js) ⟨.loop, codeLength js + 3⟩ := by
  refine ⟨trivial, ht, fun {n} hn => ⟨pre, js ++ ⟨.loop, codeLength js + 3⟩ :: post, hcode, by simp, ?_, hh.symm⟩⟩
  have hn : codeLength (pre ++ js) + 3 - (codeLength js + 3) = n := Option.some.inj hn
  rw [codeLength_append] at hn
  omega

end Jumps

/-! ### Expressions -/

namespace Expr
variable {κ : Pool} {names : List String} {code pre post : List Instr} {start floor : Nat}

theorem refers_home {p : Home} {x : String} {height : Nat} (h : κ.Finds names x p) (hn : names.length ≤ height) :
    p.get.Refers κ height ∧ p.set.Refers κ height := by
  cases p with
  | slot i => exact ⟨Nat.lt_of_lt_of_le (slot?_lt h) hn, Nat.lt_of_lt_of_le (slot?_lt h) hn⟩
  | global i => exact ⟨⟨x, h.2⟩, ⟨x, h.2⟩⟩

theorem flows_home {p : Home} {x : String} (h : κ.Finds names x p) (hn : names.length ≤ heightOf start pre)
    (hf : floor ≤ heightOf start pre) :
    p.get.Flows κ code start floor pre ∧ (floor + 1 ≤ heightOf start pre → p.set.Flows κ code start floor pre) := by
  obtain ⟨hg, hs⟩ := refers_home h hn
  refine ⟨.plain hg ?_ ?_, fun hf => .plain hs ?_ ?_⟩ <;> cases p <;> first | exact hf | rfl

theorem flow_literal {l : Literal} {is : List Instr} (h : l.Code κ is) (hf : floor ≤ heightOf start pre) :
    Flow κ code start floor pre is := by
  cases l with
  | true_ =>
    obtain rfl := h
    exact ⟨.plain trivial hf rfl, trivial⟩
  | false_ =>
    obtain rfl := h
    exact ⟨.plain trivial hf rfl, trivial⟩
  | _ =>
    obtain ⟨i, v, hv, -, rfl⟩ := h
    exact ⟨.plain (Array.getElem?_eq_some_iff.1 hv).1 hf rfl, trivial⟩

/-- The right side of a short circuit is jumped over. -/
theorem flow_shortCircuit {op : Opcode} (hop : op = .jumpIfFalse ∨ op = .jumpIfTrue) {ir : List Instr} {n : Nat}
    (hsize : codeLength ir = n) (hheight : ∀ n, heightOf n ir = n + 1)
    (hcode : code = pre ++ (⟨op, n + 1⟩ :: ⟨.pop, 0⟩ :: ir ++ post)) (hpost : post ≠ [])
    (hf : floor + 1 ≤ heightOf start pre)
    (hr : Flow κ code start floor (pre ++ [⟨op, n + 1⟩, ⟨.pop, 0⟩]) ir) :
    Flow κ code start floor pre (⟨op, n + 1⟩ :: ⟨.pop, 0⟩ :: ir) := by
  have hlength : n + 1 = codeLength (⟨.pop, 0⟩ :: ir) := by
    rw [codeLength_cons, hsize]
    exact Nat.add_comm _ _
  have hpositive : heightOf start pre - 1 + 1 = heightOf start pre := by omega
  have hjump : Instr.next ⟨op, n + 1⟩ (heightOf start pre) = heightOf start pre := by
    obtain rfl | rfl := hop <;> exact hpositive
  refine ⟨?_, .plain trivial ?_ rfl, ?_⟩
  · rw [hlength] at hcode hjump ⊢
    refine .forward (by tauto) hcode hpost ?_ ?_
    · obtain rfl | rfl := hop <;> exact hf
    · rw [heightOf_cons, hjump, heightOf_cons, hheight]
      exact hpositive
  · rw [heightOf_append, heightOf_cons, hjump]
    exact hf
  · rwa [List.append_assoc]

mutual

/-- The code of an expression leaves what is on the stack alone. -/
theorem Code.flow (e : Expr) (is : List Instr) (h : e.Code κ names is) {pre : List Instr} (post : List Instr)
    (hcode : code = pre ++ (is ++ post)) (hpost : post ≠ []) (hf : floor ≤ heightOf start pre)
    (hn : names.length ≤ heightOf start pre) : Flow κ code start floor pre is := by
  cases e with
  | literal l => exact flow_literal h hf
  | name x =>
    obtain ⟨p, hp, rfl⟩ := h
    exact ⟨(flows_home hp hn hf).1, trivial⟩
  | group e => exact Code.flow e is h _ hcode hpost hf hn
  | assign x value =>
    obtain ⟨p, iv, hp, hv, rfl⟩ := h
    have hheight : heightOf start (pre ++ iv) = heightOf start pre + 1 := by rw [heightOf_append, hv.height]
    refine (Code.flow value iv hv _ (by rw [hcode, List.append_assoc]) (by simp) hf hn).append ⟨?_, trivial⟩
    exact (flows_home hp (by omega) (by omega)).2 (by omega)
  | unary op e =>
    obtain ⟨ie, he, rfl⟩ := h
    have hheight : heightOf start (pre ++ ie) = heightOf start pre + 1 := by rw [heightOf_append, he.height]
    refine (Code.flow e ie he _ (by rw [hcode, List.append_assoc]) (by simp) hf hn).append ⟨?_, trivial⟩
    cases op <;> exact .plain trivial (by rw [hheight]; exact Nat.succ_le_succ hf) rfl
  | binary op left right =>
    obtain ⟨il, ir, hl, hr, rfl⟩ := h
    have hleft : heightOf start (pre ++ il) = heightOf start pre + 1 := by rw [heightOf_append, hl.height]
    have hright : heightOf start (pre ++ il ++ ir) = heightOf start pre + 2 := by
      rw [heightOf_append, hleft, hr.height]
    refine (Code.flow left il hl _ (by rw [hcode, List.append_assoc]) (by simp) hf hn).append ?_
    refine (Code.flow right ir hr (⟨op.opcode, 0⟩ :: post) (by simp [hcode]) (by simp) (by omega)
      (by omega)).append ⟨?_, trivial⟩
    cases op <;> exact .plain trivial (by rw [hright]; exact Nat.add_le_add_right hf 2) rfl
  | and left right =>
    obtain ⟨il, ir, hl, hr, rfl⟩ := h
    have hleft : heightOf start (pre ++ il) = heightOf start pre + 1 := by rw [heightOf_append, hl.height]
    have hskip : heightOf start (pre ++ il ++ [⟨.jumpIfFalse, right.size + 1⟩, ⟨.pop, 0⟩]) = heightOf start pre := by
      rw [heightOf_append, hleft]
      rfl
    refine (Code.flow left il hl _ (by rw [hcode, List.append_assoc]) (by simp) hf hn).append ?_
    refine flow_shortCircuit (.inl rfl) hr.size hr.height (by simp [hcode]) hpost (by omega) ?_
    exact Code.flow right ir hr _ (by simp [hcode]) hpost (by omega) (by omega)
  | or left right =>
    obtain ⟨il, ir, hl, hr, rfl⟩ := h
    have hleft : heightOf start (pre ++ il) = heightOf start pre + 1 := by rw [heightOf_append, hl.height]
    have hskip : heightOf start (pre ++ il ++ [⟨.jumpIfTrue, right.size + 1⟩, ⟨.pop, 0⟩]) = heightOf start pre := by
      rw [heightOf_append, hleft]
      rfl
    refine (Code.flow left il hl _ (by rw [hcode, List.append_assoc]) (by simp) hf hn).append ?_
    refine flow_shortCircuit (.inr rfl) hr.size hr.height (by simp [hcode]) hpost (by omega) ?_
    exact Code.flow right ir hr _ (by simp [hcode]) hpost (by omega) (by omega)
  | call callee arguments =>
    obtain ⟨ic, ia, hc, ha, rfl⟩ := h
    have hcallee : heightOf start (pre ++ ic) = heightOf start pre + 1 := by rw [heightOf_append, hc.height]
    have hargs : heightOf start (pre ++ ic ++ ia) = heightOf start pre + 1 + arguments.length := by
      rw [heightOf_append, hcallee, ha.height]
    refine (Code.flow callee ic hc _ (by rw [hcode, List.append_assoc]) (by simp) hf hn).append ?_
    refine (AllCode.flow arguments ia ha (⟨.call, arguments.length⟩ :: post) (by simp [hcode]) (by simp)
      (by omega) (by omega)).append ⟨.plain trivial ?_ rfl, trivial⟩
    rw [hargs]
    simp only [Instr.takes]
    omega

theorem AllCode.flow (es : List Expr) (is : List Instr) (h : AllCode κ names es is) {pre : List Instr}
    (post : List Instr) (hcode : code = pre ++ (is ++ post)) (hpost : post ≠ []) (hf : floor ≤ heightOf start pre)
    (hn : names.length ≤ heightOf start pre) : Flow κ code start floor pre is := by
  cases es with
  | nil =>
    obtain rfl := h
    trivial
  | cons e es =>
    obtain ⟨ie, js, he, hs, rfl⟩ := h
    have hheight : heightOf start (pre ++ ie) = heightOf start pre + 1 := by rw [heightOf_append, he.height]
    refine (Code.flow e ie he (js ++ post) (by simp [hcode]) (by simp [hpost]) hf hn).append ?_
    exact AllCode.flow es js hs _ (by simp [hcode]) hpost (by omega) (by omega)

end

theorem ItemsCode.flow (es : List Expr) (is : List Instr) (h : ItemsCode κ names es is) {pre : List Instr}
    (post : List Instr) (hcode : code = pre ++ (is ++ post)) (hf : floor ≤ heightOf start pre)
    (hn : names.length ≤ heightOf start pre) : Flow κ code start floor pre is := by
  induction es generalizing is pre with
  | nil =>
    obtain rfl := h
    trivial
  | cons e es ih =>
    obtain ⟨ie, js, he, hs, rfl⟩ := h
    have hheight : heightOf start (pre ++ ie) = heightOf start pre + 1 := by rw [heightOf_append, he.height]
    have hprint : heightOf start (pre ++ ie ++ [⟨.print, 0⟩]) = heightOf start pre := by
      rw [heightOf_append, hheight]
      rfl
    refine (Code.flow e ie he (⟨.print, 0⟩ :: js ++ post) (by simp [hcode]) (by simp) hf hn).append
      ⟨.plain trivial (by rw [hheight]; exact Nat.succ_le_succ hf) rfl, ?_⟩
    exact ih js hs (by simp [hcode]) (by omega) (by omega)

end Expr

/-! ### Declarations -/

namespace Scope

theorem live_after (σ : Scope) (d : Decl) : (σ.after d).live = σ.live + Decl.newSlots σ.isLocal d.declared := by
  cases h : σ.isLocal with
  | false => rw [after, foldl_declare_of_global h, Decl.newSlots, if_neg Bool.false_ne_true, Nat.add_zero]
  | true =>
    rw [after, foldl_declare h, Decl.newSlots, if_pos rfl]
    simp only [live, names, List.length_append, List.length_reverse]
    omega

end Scope

namespace Decl
variable {κ : Pool} {code : List Instr} {start floor : Nat}

theorem flow_pops {pre : List Instr} {k : Nat} (h : heightOf start pre = floor + k) :
    Flow κ code start floor pre (pops k) := by
  induction k generalizing pre with
  | zero => trivial
  | succ k ih =>
    rw [pops, List.replicate_succ]
    refine ⟨.plain trivial (by rw [h]; exact Nat.add_le_add_left (Nat.le_add_left 1 k) _) rfl, ih ?_⟩
    rw [heightOf_append, h]
    rfl

/-- A block drops no more than its own variables. -/
theorem flow_block {σ : Scope} {first : Nat} {ds : List Decl} {pre ib : List Instr} (hh : heightOf start pre = σ.live)
    (hb : ListCode κ σ.enter first ds ib) (hflow : Flow κ code start σ.live pre ib) :
    Flow κ code start σ.live pre (ib ++ pops (listDeclared ds).length) ∧
      heightOf start (pre ++ (ib ++ pops (listDeclared ds).length)) = σ.live := by
  have hblock := hb.height _ _ _ _ σ.live
  refine ⟨hflow.append (flow_pops ?_), ?_⟩
  · rw [heightOf_append, hh, hblock]
    rfl
  · rw [heightOf_append, hh]
    exact height_block hblock

theorem flow_settles {isLocal : Bool} {x : String} {js pre : List Instr} (h : κ.Settles isLocal x js)
    (hh : floor + 1 ≤ heightOf start pre) : Flow κ code start floor pre js := by
  cases isLocal with
  | true =>
    obtain rfl : js = [] := h
    trivial
  | false =>
    obtain ⟨i, hi, rfl⟩ := h
    exact ⟨.plain ⟨x, hi⟩ hh rfl, trivial⟩

/-- The value of a new variable is on the stack. -/
theorem flow_var {σ : Scope} {x : String} (ie : List Instr) {js pre : List Instr} (hh : heightOf start pre = σ.live)
    (he : Flow κ code start σ.live pre ie) (hone : heightOf σ.live ie = σ.live + 1) (hj : κ.Settles σ.isLocal x js) :
    Flow κ code start σ.live pre (ie ++ js) := by
  refine he.append (flow_settles hj ?_)
  rw [heightOf_append, hh, hone]

theorem codeLength_block {σ : Scope} {first : Nat} {ds : List Decl} {ib : List Instr}
    (hb : ListCode κ σ.enter first ds ib) : codeLength (ib ++ pops (listDeclared ds).length) = blockSize ds := by
  rw [codeLength_append, hb.size, codeLength_pops]
  rfl

/-- A block that a condition may jump over, together with the jump behind the block. -/
theorem flow_guarded {op : Opcode} (hop : op = .jumpIfFalse ∨ op = .jumpIfTrue) (j : Instr)
    (hj : j.op = .jump ∨ j.op = .loop) (rest : List Instr) {σ : Scope} {first : Nat} {e : Expr} {ds : List Decl}
    {pre ic ib : List Instr} (hc : e.Code κ σ.names ic) (hb : ListCode κ σ.enter first ds ib)
    (hcode : code = pre ++ (ic ++ ⟨op, blockSize ds + 4⟩ :: ⟨.pop, 0⟩ ::
      (ib ++ pops (listDeclared ds).length ++ j :: rest))) (hrest : rest ≠ []) (hh : heightOf start pre = σ.live)
    (hflow : heightOf start (pre ++ ic ++ [⟨op, blockSize ds + 4⟩, ⟨.pop, 0⟩]) = σ.live →
      Flow κ code start σ.live (pre ++ ic ++ [⟨op, blockSize ds + 4⟩, ⟨.pop, 0⟩]) ib) :
    Flow κ code start σ.live pre (ic ++ ⟨op, blockSize ds + 4⟩ :: ⟨.pop, 0⟩ ::
        (ib ++ pops (listDeclared ds).length)) ∧
      heightOf start (pre ++ (ic ++ ⟨op, blockSize ds + 4⟩ :: ⟨.pop, 0⟩ ::
        (ib ++ pops (listDeclared ds).length))) = σ.live := by
  have hone : heightOf start (pre ++ ic) = σ.live + 1 := by rw [heightOf_append, hc.height, hh]
  have hjump : ∀ n, Instr.next ⟨op, n⟩ (σ.live + 1) = σ.live + 1 := by obtain rfl | rfl := hop <;> exact fun _ => rfl
  have htest : heightOf start (pre ++ ic ++ [⟨op, blockSize ds + 4⟩, ⟨.pop, 0⟩]) = σ.live := by
    rw [heightOf_append, hone, heightOf_cons, hjump]
    rfl
  obtain ⟨hblock, hend⟩ := flow_block htest hb (hflow htest)
  have hlength : blockSize ds + 4 = codeLength (⟨.pop, 0⟩ :: (ib ++ pops (listDeclared ds).length ++ [j])) := by
    have hsize : j.size = 3 := by
      rw [Instr.size]
      obtain h | h := hj <;> rw [h] <;> rfl
    rw [codeLength_cons, codeLength_append, codeLength_block hb, codeLength_cons, hsize]
    exact Nat.add_comm _ 1
  have hle : σ.live ≤ heightOf start pre := Nat.le_of_eq hh.symm
  refine ⟨(hc.flow e ic _ (by rw [hcode, List.append_assoc]) (by simp) hle hle).append
    ⟨?_, .plain trivial ?_ rfl, ?_⟩, ?_⟩
  · have hbody : heightOf σ.live (ib ++ pops (listDeclared ds).length ++ [j]) = σ.live + 1 := by
      rw [heightOf_append, height_block (hb.height _ _ _ _ _)]
      simp only [heightOf_cons, heightOf_nil, Instr.next]
      obtain h | h := hj <;> rw [h]
    rw [hlength] at hcode ⊢
    refine .forward (by tauto) (by rw [hcode]; simp) hrest ?_ ?_
    · rw [hone]
      obtain rfl | rfl := hop <;> exact Nat.le_refl _
    · rw [hone, heightOf_cons, hjump, heightOf_cons]
      exact hbody
  · rw [heightOf_append, hone, heightOf_cons, hjump]
    exact Nat.le_refl _
  · rwa [List.append_assoc]
  · simpa using hend

/-- What stands behind a block is jumped over from the end of the block. -/
theorem flow_skip (js : List Instr) {pre post : List Instr} {n : Nat} (hn : codeLength js = n)
    (hcode : code = pre ++ (⟨.jump, n⟩ :: js ++ post)) (hpost : post ≠ []) (hh : heightOf start pre = floor)
    (hback : heightOf (floor + 1) js = floor)
    (hflow : heightOf start (pre ++ [⟨.jump, n⟩]) = floor + 1 → Flow κ code start floor (pre ++ [⟨.jump, n⟩]) js) :
    Flow κ code start floor pre (⟨.jump, n⟩ :: js) := by
  subst hn
  refine ⟨.forward (.inl rfl) hcode hpost (Nat.le_of_eq hh.symm) ?_, hflow ?_⟩
  · rw [hh]
    exact hback
  · rw [heightOf_append, hh]
    rfl

theorem flow_return {pre : List Instr} (hh : floor ≤ heightOf start pre) : Flow κ code start floor pre returnCode := by
  refine ⟨.plain trivial hh rfl, .plain trivial ?_ rfl, trivial⟩
  rw [heightOf_append]
  exact Nat.succ_le_succ hh

mutual

/-- The code of a declaration leaves the variables in scope alone. -/
theorem Code.flow (σ : Scope) (first : Nat) (d : Decl) (is : List Instr) (h : d.Code κ σ first is)
    {pre : List Instr} (post : List Instr) (hcode : code = pre ++ (is ++ post)) (hpost : post ≠ [])
    (hh : heightOf start pre = σ.live) : Flow κ code start σ.live pre is := by
  have hf : σ.live ≤ heightOf start pre := Nat.le_of_eq hh.symm
  have hone : ∀ {e : Expr} {ie : List Instr}, e.Code κ σ.names ie → heightOf start (pre ++ ie) = σ.live + 1 := by
    intro e ie he
    rw [heightOf_append, he.height, hh]
  cases d with
  | expression e =>
    obtain ⟨ie, he, rfl⟩ := h
    refine (he.flow e ie _ (by rw [hcode, List.append_assoc]) (by simp) hf hf).append ⟨.plain trivial ?_ rfl, trivial⟩
    exact Nat.le_of_eq (hone he).symm
  | print e es =>
    obtain ⟨ie, js, he, hs, rfl⟩ := h
    have hprint : heightOf start (pre ++ ie ++ [⟨.print, 0⟩]) = σ.live := by
      rw [heightOf_append, hone he]
      rfl
    refine (he.flow e ie (⟨.print, 0⟩ :: js ++ post) (by simp [hcode]) (by simp) hf hf).append
      ⟨.plain trivial (Nat.le_of_eq (hone he).symm) rfl, ?_⟩
    exact hs.flow es js post (by simp [hcode]) (Nat.le_of_eq hprint.symm) (Nat.le_of_eq hprint.symm)
  | read form x =>
    obtain ⟨p, hp, rfl⟩ := h
    have hread : heightOf start (pre ++ [⟨form.opcode, 0⟩]) = σ.live + 1 := by
      rw [heightOf_append, hh]
      cases form <;> rfl
    have hset : heightOf start (pre ++ [⟨form.opcode, 0⟩] ++ [p.set]) = σ.live + 1 := by
      rw [heightOf_append, hread]
      exact height_set p _
    have hle : σ.live ≤ σ.live + 1 := Nat.le_succ _
    refine ⟨?_, (Expr.flows_home hp (hread ▸ hle) (hread ▸ hle)).2 (Nat.le_of_eq hread.symm),
      .plain trivial (Nat.le_of_eq hset.symm) rfl, trivial⟩
    cases form <;> exact .plain trivial hf rfl
  | if_ condition body =>
    obtain ⟨ic, ib, hc, hb, rfl⟩ := h
    obtain ⟨hflow, hend⟩ := flow_guarded (.inl rfl) ⟨.jump, 1⟩ (.inl rfl) (⟨.pop, 0⟩ :: post) hc hb
      (by simp [hcode]) (by simp) hh (ListCode.flow σ.enter first body ib hb
        (pops (listDeclared body).length ++ ⟨.jump, 1⟩ :: ⟨.pop, 0⟩ :: post) (by simp [hcode]) (by simp))
    have hall := hflow.append (flow_skip [⟨.pop, 0⟩] (n := 1) rfl (hcode.trans (by simp)) hpost hend rfl
      fun hjump => ⟨.plain trivial (Nat.le_of_eq hjump.symm) rfl, trivial⟩)
    simpa using hall
  | ifElse condition body alternative =>
    obtain ⟨ic, ib, ia, hc, hb, ha, rfl⟩ := h
    obtain ⟨hflow, hend⟩ := flow_guarded (.inl rfl) ⟨.jump, blockSize alternative + 1⟩ (.inl rfl)
      (⟨.pop, 0⟩ :: (ia ++ pops (listDeclared alternative).length) ++ post) hc hb (by simp [hcode]) (by simp) hh
      (ListCode.flow σ.enter first body ib hb (pops (listDeclared body).length ++
        ⟨.jump, blockSize alternative + 1⟩ :: ⟨.pop, 0⟩ :: (ia ++ pops (listDeclared alternative).length) ++ post)
          (by simp [hcode]) (by simp))
    have hall := hflow.append (flow_skip (⟨.pop, 0⟩ :: (ia ++ pops (listDeclared alternative).length))
      (n := blockSize alternative + 1) ?_ (hcode.trans (by simp)) hpost hend (height_block (ha.height _ _ _ _ _))
      fun hjump => ⟨.plain trivial (Nat.le_of_eq hjump.symm) rfl, ?_⟩)
    · simpa using hall
    · rw [codeLength_cons, codeLength_block ha]
      exact Nat.add_comm 1 _
    · have hpop : ∀ pre', heightOf start pre' = σ.live + 1 → heightOf start (pre' ++ [⟨.pop, 0⟩]) = σ.live := by
        intro pre' h
        rw [heightOf_append, h]
        rfl
      refine (flow_block (hpop _ hjump) ha (ListCode.flow σ.enter _ alternative ia ha
        (pops (listDeclared alternative).length ++ post) ?_ (by simp [hpost]) (hpop _ hjump))).1
      simp [hcode]
  | until_ condition body =>
    obtain ⟨ic, ib, hc, hb, rfl⟩ := h
    obtain ⟨hflow, hend⟩ := flow_guarded (.inr rfl) ⟨.loop, condition.size + blockSize body + 7⟩ (.inr rfl)
      (⟨.pop, 0⟩ :: post) hc hb (by simp [hcode]) (by simp) hh (ListCode.flow σ.enter first body ib hb
        (pops (listDeclared body).length ++ ⟨.loop, condition.size + blockSize body + 7⟩ :: ⟨.pop, 0⟩ :: post)
          (by simp [hcode]) (by simp))
    have hlength : condition.size + blockSize body + 7 = codeLength (ic ++ ⟨.jumpIfTrue, blockSize body + 4⟩ ::
        ⟨.pop, 0⟩ :: (ib ++ pops (listDeclared body).length)) + 3 := by
      rw [codeLength_append, hc.size, codeLength_cons, codeLength_cons, codeLength_block hb]
      simp only [Instr.size, Opcode.width]
      omega
    have hall : Flow κ code start σ.live pre (_ ++ [⟨.loop, condition.size + blockSize body + 7⟩, ⟨.pop, 0⟩]) :=
      hflow.append
      ⟨?_, .plain trivial ?_ rfl, trivial⟩
    · simpa using hall
    · rw [hlength] at hcode ⊢
      exact .back (⟨.pop, 0⟩ :: post) (hcode.trans (by simp)) (Nat.le_of_eq hend.symm) (hend.trans hh.symm)
    · rw [heightOf_append, hend]
      exact Nat.le_refl _
  | out value =>
    cases value with
    | none =>
      obtain rfl := h
      exact flow_return hf
    | some e =>
      obtain ⟨ie, he, rfl⟩ := h
      exact (he.flow e ie _ (by rw [hcode, List.append_assoc]) (by simp) hf hf).append
        ⟨.plain trivial (Nat.le_of_eq (hone he).symm) rfl, trivial⟩
  | block mark body =>
    obtain ⟨ib, hb, rfl⟩ := h
    exact (flow_block hh hb (ListCode.flow σ.enter first body ib hb
      (pops (listDeclared body).length ++ post) (by simp [hcode]) (by simp [hpost]) hh)).1
  | var x initial =>
    cases initial with
    | none =>
      obtain ⟨js, hj, rfl⟩ := h
      exact flow_var [⟨.null, 0⟩] hh ⟨.plain trivial hf rfl, trivial⟩ rfl hj
    | some e =>
      obtain ⟨ie, js, he, hj, rfl⟩ := h
      exact flow_var ie hh (he.flow e ie (js ++ post) (by simp [hcode]) (by simp [hpost]) hf hf)
        (he.height _ _ _) hj
  | fun_ x parameters body =>
    obtain ⟨i, f, ib, js, hi, -, -, -, hj, rfl⟩ := h
    exact flow_var [⟨.constant, i⟩] hh
      ⟨.plain (Array.getElem?_eq_some_iff.1 hi).1 hf rfl, trivial⟩ rfl hj

theorem ListCode.flow (σ : Scope) (first : Nat) (ds : List Decl) (is : List Instr) (h : ListCode κ σ first ds is)
    {pre : List Instr} (post : List Instr) (hcode : code = pre ++ (is ++ post)) (hpost : post ≠ [])
    (hh : heightOf start pre = σ.live) : Flow κ code start σ.live pre is := by
  cases ds with
  | nil =>
    obtain rfl := h
    trivial
  | cons d ds =>
    obtain ⟨id, js, hd, hs, rfl⟩ := h
    have hafter : heightOf start (pre ++ id) = (σ.after d).live := by
      rw [heightOf_append, hh, hd.height, Scope.live_after]
    refine (Code.flow σ first d id hd (js ++ post) (by simp [hcode]) (by simp [hpost]) hh).append ?_
    refine (ListCode.flow _ _ ds js hs _ (by simp [hcode]) hpost hafter).mono ?_
    rw [Scope.live_after]
    exact Nat.le_add_right _ _

end
end Decl
end StackScript
