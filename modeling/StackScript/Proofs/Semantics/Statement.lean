import StackScript.Proofs.Code.Heights
import StackScript.Proofs.Code.Script
import StackScript.Proofs.Semantics.Expression

/-! The code of a statement does what a walk does, and leaves nothing on the stack but new variables. -/
namespace StackScript
open Machine
variable {k : Spot} {names : List String} {ip ip' n : Nat} {m : Machine} {s : Scene} {temps : List Datum} {d : Datum}
  {enter : Walk.Enter}

/-- Where a statement leads to: behind it, or out of the call. -/
def Leads (k : Spot) (names : List String) (ip : Nat) : Option Datum → Scene → Machine → Prop
  | none, s, m => Stage k names ip m s []
  | some d, s, m => Returned k m s.toWorld d

/-! ### Variables -/

/-- A new variable has its value, which is on top of the stack. -/
theorem settles_follows {σ : Scope} {x : String} {js : List Instr} (hj : k.pool.Settles σ.isLocal x js)
    (hat : k.Has ip js) (h : Stage k σ.names ip m s [d]) :
    Follows k.limits n m (fun _ s' m' => Stage k (σ.declare x).names (ip + codeLength js) m' s' [])
      ((Walk.declare σ.isLocal x d).run s) := by
  cases hσ : σ.isLocal with
  | true =>
    rw [hσ] at hj
    obtain rfl : js = [] := hj
    have hrun : (Walk.declare true x d).run s = .ok () { s with locals := (x, d) :: s.locals } := rfl
    rw [hrun, Scope.names_declare hσ]
    refine .arrives (.refl m) ?_
    exact ⟨⟨h.mirrors, h.frames, h.active, h.stack, h.store, congrArg (x :: ·) h.names⟩, h.running⟩
  | false =>
    rw [hσ] at hj
    obtain ⟨i, hi, rfl⟩ := hj
    rw [Scope.declare_of_global hσ]
    exact (h.follows hat fun hm _ => matches_define hm hi).mono fun hd => ⟨hd.2, hd.1⟩

/-- The newest variables are dropped: they count as values that are still on the stack. -/
theorem Stage.leave (h : Stage k names ip m s []) (count : Nat) :
    Stage k (names.drop count) ip m { s with locals := s.locals.drop count } ((s.locals.take count).map Prod.snd) := by
  refine ⟨⟨h.mirrors, h.frames, h.active, ?_, h.store, ?_⟩, h.running⟩
  · rw [← List.map_append, List.take_append_drop]
    exact h.stack
  · rw [← h.names, List.map_drop]

theorem Stage.pops (h : Stage k names ip m s temps) (hat : k.Has ip (Decl.pops temps.length)) :
    ∃ m', Steps m m' ∧ Stage k names (ip + temps.length) m' s [] := by
  induction temps generalizing ip m with
  | nil => exact ⟨m, .refl m, h⟩
  | cons d temps ih =>
    obtain ⟨m₁, hpop, h⟩ := h.pop hat
    obtain ⟨m₂, hsteps, h⟩ := ih h hat.tail
    refine ⟨m₂, hsteps.head hpop, ?_⟩
    rw [List.length_cons, Nat.add_comm temps.length, ← Nat.add_assoc]
    exact h

/-! ### Returns -/

theorem Stage.returns (h : Stage k names ip m s [d]) {is : List Instr} (hat : k.Has ip (⟨.out, 0⟩ :: is))
    (hcallers : k.callers ≠ []) : ∃ m', cycle.run m = .ok () m' ∧ Returned k m' s.toWorld d := by
  obtain ⟨m', hrun, hm, hready⟩ := h.run_cycle hat
  obtain ⟨rest, v, hstack, hv, hrest⟩ := hm.stack.pop
  obtain ⟨own, rfl, -⟩ := hrest.exists_append
  obtain ⟨g, callers, hg⟩ := List.exists_cons_of_ne_nil hcallers
  have hframes := hm.frames
  rw [hg] at hframes
  have hreturn : (⟨.out, 0⟩ : Instr).perform.run m' =
    .ok () { m' with frames := g :: callers, stack := k.below.push v } := run_returnTop hframes hstack rfl hready.room
  have hstep := hrun.trans hreturn
  refine ⟨_, hstep, h.running.goesOn hstep, ?_, hg.symm, .push .nil hv, hm.store⟩
  exact (hm.mirrors.with_frames (g :: callers)).with_stack (k.below.push v)

/-- The end of a call with a value. -/
theorem out_follows (h : Stage k names ip m s [d]) {is : List Instr} (hat : k.Has ip (⟨.out, 0⟩ :: is))
    (hcallers : k.callers ≠ []) :
    Follows k.limits n m (Leads k names ip') ((pure (some d) : Walk (Option Datum)).run s) := by
  obtain ⟨m', hstep, hreturned⟩ := h.returns hat hcallers
  exact .arrives (.one hstep) hreturned

/-! ### Blocks, conditions and loops -/

section
variable {σ : Scope} {body : List Decl} {ib : List Instr} {walk : Walk (Option Datum)}

/-- Behind a statement one more step is taken. -/
theorem Follows.skip {result : EStateM.Result Stop Scene (Option Datum)}
    (h : Follows k.limits n m (Leads k names ip) result)
    (hskip : ∀ {m s}, Stage k names ip m s [] → ∃ m', cycle.run m = .ok () m' ∧ Stage k names ip' m' s []) :
    Follows k.limits n m (Leads k names ip') result := by
  refine h.onward fun {a s m'} h => ?_
  cases a with
  | none =>
    obtain ⟨m'', hstep, h⟩ := hskip h
    exact ⟨m'', .one hstep, h⟩
  | some d => exact ⟨m', .refl m', h⟩

/-- A block, at the end of which the names are dropped that are declared in it. -/
theorem block_follows {first : Nat} (hb : Decl.ListCode k.pool σ.enter first body ib)
    (hat : k.Has ip (ib ++ Decl.pops (Decl.listDeclared body).length)) (h : Stage k σ.names ip m s [])
    (hbody : Follows k.limits n m (Leads k (σ.enter.afterAll body).names (ip + codeLength ib)) (walk.run s)) :
    Follows k.limits n m (Leads k σ.names (ip + Decl.blockSize body)) ((Walk.inBlock walk).run s) := by
  have hsize : ip + codeLength ib + (Decl.listDeclared body).length = ip + Decl.blockSize body := by
    rw [← Decl.codeLength_block hb, codeLength_append, Decl.codeLength_pops, Nat.add_assoc]
  rw [Walk.inBlock, Walk.run_get_bind, ← hsize]
  refine hbody.bind fun {o s' m'} h' => ?_
  cases o with
  | some d => exact .stay h'
  | none =>
    obtain ⟨count, hcount⟩ : ∃ count, (Decl.listDeclared body).length = count := ⟨_, rfl⟩
    rw [hcount] at hat ⊢
    have h' : Stage k (σ.enter.afterAll body).names (ip + codeLength ib) m' s' [] := h'
    have hnames : (σ.enter.afterAll body).names.drop count = σ.names := by
      rw [Scope.afterAll_enter]
      exact List.drop_left' (by rw [List.length_reverse, hcount])
    have hlength : s'.locals.length - s.locals.length = count := by
      have hbefore := congrArg List.length h.names
      have hafter := congrArg List.length h'.names
      rw [Scope.afterAll_enter] at hafter
      simp only [Scope.names, List.length_map, List.length_append, List.length_reverse, hcount, Scope.enter,
        List.flatten_cons] at hbefore hafter
      omega
    have hleave := h'.leave count
    rw [hnames] at hleave
    have htemps : ((s'.locals.take count).map Prod.snd).length = count := by
      rw [List.length_map, List.length_take]
      omega
    have hpops := hat.right
    rw [← htemps] at hpops
    obtain ⟨m'', hsteps, hafter⟩ := hleave.pops hpops
    rw [htemps] at hafter
    refine .before hsteps ?_
    change Follows _ _ _ _ (.ok none { s' with locals := s'.locals.drop (s'.locals.length - s.locals.length) })
    rw [hlength]
    exact .arrives (.refl m'') hafter

/-- A loop, whose condition is found again behind each walk through its body. -/
theorem loop_follows {condition : Walk Datum} {c size : Nat}
    (hpop : k.Has (ip + c) (⟨.jumpIfTrue, size + 4⟩ :: ⟨.pop, 0⟩ :: ib))
    (hloop : k.Has (ip + c + 4 + size) [⟨.loop, c + size + 7⟩, ⟨.pop, 0⟩])
    (hcondition : ∀ {m s}, Stage k names ip m s [] →
      Follows k.limits n m (fun d s' m' => Stage k names (ip + c) m' s' [d]) (condition.run s))
    (hbody : ∀ {m s}, Stage k names (ip + c + 4) m s [] →
      Follows k.limits n m (Leads k names (ip + c + 4 + size)) (walk.run s)) (h : Stage k names ip m s []) {j : Nat}
    (hj : j ≤ n) :
    Follows k.limits j m (Leads k names (ip + c + size + 8)) ((Walk.repeatUntil condition walk j).run s) := by
  induction j generalizing m s with
  | zero => exact .tires (.zero m)
  | succ j ih =>
    rw [Walk.repeatUntil]
    refine ((hcondition h).fewer hj).bind fun {d s' m'} h => ?_
    obtain ⟨m₁, hjump, h⟩ := h.jumpIfTrue hpop
    refine Follows.before (.one hjump) ?_
    by_cases hd : d.isFalsey
    · rw [if_pos hd] at h ⊢
      obtain ⟨m₂, hdrop, h⟩ := h.pop hpop.tail
      refine Follows.before (.one hdrop) (((hbody h).fewer hj).bind fun {o s' m'} h => ?_)
      cases o with
      | some v => exact .stay h
      | none =>
        obtain ⟨m₃, hback, h⟩ := Stage.loop h hloop (by omega)
        have hip : ip + c + 4 + size + 3 - (c + size + 7) = ip := by omega
        rw [hip] at h
        exact (ih h (Nat.le_of_succ_le hj)).step hback
    · rw [if_neg hd] at h ⊢
      have hip : ip + c + 3 + (size + 4) = ip + c + 4 + size + 3 := by omega
      rw [hip] at h
      obtain ⟨m₂, hdrop, h⟩ := h.pop hloop.tail
      have hend : ip + c + 4 + size + 3 + 1 = ip + c + size + 8 := by omega
      rw [hend] at h
      exact .before (.one hdrop) (.stay h)

/-- Behind a block that a condition has not jumped over, a jump leads over what follows. -/
theorem Follows.jump {result : EStateM.Result Stop Scene (Option Datum)} {distance : Nat} {is : List Instr}
    (h : Follows k.limits n m (Leads k names ip) result) (hat : k.Has ip (⟨.jump, distance⟩ :: is)) :
    Follows k.limits n m (Leads k names (ip + 3 + distance)) result :=
  h.skip fun h => h.jump hat

/-- A condition decides between the part behind it and the part behind that, over which the first one jumps. Each of them
begins without the value of the condition. -/
theorem branch_follows {condition : Walk Datum} {yes no : Walk (Option Datum)} {size distance : Nat}
    {is js : List Instr} (hguard : k.Has ip (⟨.jumpIfFalse, size + 4⟩ :: ⟨.pop, 0⟩ :: is))
    (hjump : k.Has (ip + 3 + 1 + size) (⟨.jump, distance⟩ :: ⟨.pop, 0⟩ :: js))
    (hcondition : Follows k.limits n m (fun d s' m' => Stage k names ip m' s' [d]) (condition.run s))
    (hyes : ∀ {m s}, Stage k names (ip + 3 + 1) m s [] →
      Follows k.limits n m (Leads k names (ip + 3 + 1 + size)) (yes.run s))
    (hno : ∀ {m s}, Stage k names (ip + 3 + 1 + size + 3 + 1) m s [] →
      Follows k.limits n m (Leads k names (ip + 3 + 1 + size + 3 + distance)) (no.run s)) :
    Follows k.limits n m (Leads k names (ip + 3 + 1 + size + 3 + distance))
      ((condition >>= fun d => if d.isFalsey then no else yes).run s) := by
  refine hcondition.bind fun {d s' m₁} h => ?_
  obtain ⟨m₂, hstep, h⟩ := h.jumpIfFalse hguard
  refine Follows.before (.one hstep) ?_
  by_cases hd : d.isFalsey
  · rw [if_pos hd] at h ⊢
    have hip : ip + 3 + (size + 4) = ip + 3 + 1 + size + 3 := by omega
    rw [hip] at h
    obtain ⟨m₃, hpop, h⟩ := h.pop hjump.tail
    exact .before (.one hpop) (hno h)
  · rw [if_neg hd] at h ⊢
    obtain ⟨m₃, hpop, h⟩ := h.pop hguard.tail
    exact .before (.one hpop) ((hyes h).jump hjump)

end

/-! ### Statements -/

theorem items_follows (henter : EnterFollows n enter) (es : List Expr) (is : List Instr)
    (hc : Expr.ItemsCode k.pool names es is) (hat : k.Has ip is) (h : Stage k names ip m s []) :
    Follows k.limits (n + 1) m (fun _ s' m' => Stage k names (ip + codeLength is) m' s' [])
      ((Expr.printAll enter (k.around ip []) es).run s) := by
  induction es generalizing ip m s is with
  | nil =>
    obtain rfl := hc
    exact .stay h
  | cons e es ih =>
    obtain ⟨ie, js, he, hes, rfl⟩ := hc
    rw [Expr.printAll, codeLength_append, codeLength_cons, ← Nat.add_assoc, ← Nat.add_assoc, ← he.size]
    refine (e.eval_follows henter ie he hat.left h).bind fun h => ?_
    refine (h.follows hat.right fun hm hready =>
      matches_print hm hready (c := k.around (ip + codeLength ie) []) rfl).bind fun h => ?_
    exact ih js hes hat.right.tail ⟨h.2, h.1⟩

namespace Decl

mutual

/-- Behind the code of a statement nothing is on the stack but variables, unless the call is over. -/
theorem exec_follows (henter : EnterFollows n enter) (σ : Scope) (first : Nat) (d : Decl) (is : List Instr)
    (hc : d.Code k.pool σ first is) (hret : k.callers = [] → NoReturn is) {ip : Nat} {m : Machine} {s : Scene}
    (hat : k.Has ip is) (h : Stage k σ.names ip m s []) :
    Follows k.limits (n + 1) m (Leads k (σ.after d).names (ip + codeLength is))
      ((d.exec enter (n + 1) (k.around ip []) σ.isLocal first).run s) := by
  cases d with
  | expression e =>
    obtain ⟨ie, he, rfl⟩ := hc
    rw [exec, codeLength_append, ← Nat.add_assoc]
    refine (e.eval_follows henter ie he hat.left h).bind fun {v s' m'} h => ?_
    obtain ⟨m'', hpop, h⟩ := h.pop hat.right
    exact .before (.one hpop) (.stay h)
  | print e es =>
    rw [exec]
    exact (items_follows henter (e :: es) is hc hat h).bind fun h => .stay h
  | read form x =>
    obtain ⟨p, hp, rfl⟩ := hc
    have hsize : (⟨form.opcode, 0⟩ : Instr).size = 1 := by cases form <;> rfl
    rw [exec, codeLength_cons, codeLength_cons, hsize, ← Nat.add_assoc, ← Nat.add_assoc]
    have hset := hat.tail
    rw [hsize] at hset
    refine (h.yields hat fun hm hready => matches_read form hm hready).bind fun h => ?_
    rw [hsize] at h
    refine (h.yields hset fun hm _ => matches_set hm hp hset.fits).bind fun {v s' m'} h => ?_
    obtain ⟨m'', hpop, h⟩ := h.pop hset.tail
    exact .before (.one hpop) (.stay h)
  | if_ condition body =>
    obtain ⟨ic, ib, hcond, hb, rfl⟩ := hc
    have hbody : k.callers = [] → NoReturn ib := fun hnil i hi => hret hnil i (by simp [hi])
    have hblock := hat.right.tail.tail.left
    have hjump := hat.right.tail.tail.right
    rw [codeLength_block hb] at hjump
    have hend : ip + codeLength (ic ++ ⟨.jumpIfFalse, blockSize body + 4⟩ :: ⟨.pop, 0⟩ ::
        (ib ++ pops (listDeclared body).length ++ [⟨.jump, 1⟩, ⟨.pop, 0⟩])) =
        ip + codeLength ic + 3 + 1 + blockSize body + 3 + 1 := by
      have hsize := codeLength_block hb
      simp only [codeLength_append, codeLength_cons, codeLength_nil, Instr.size, Opcode.width] at hsize ⊢
      omega
    rw [exec, hend, ← hcond.size, Spot.skip_around, ← Nat.add_assoc ip (codeLength ic) 4]
    refine branch_follows hat.right hjump (condition.eval_follows henter ic hcond hat.left h) (fun h => ?_) fun h =>
      .stay h
    exact block_follows hb hblock h (listExec_follows henter σ.enter first body ib hb hbody hblock.left h)
  | ifElse condition body alternative =>
    obtain ⟨ic, ib, ia, hcond, hb, ha, rfl⟩ := hc
    have hbody : k.callers = [] → NoReturn ib := fun hnil i hi => hret hnil i (by simp [hi])
    have hother : k.callers = [] → NoReturn ia := fun hnil i hi => hret hnil i (by simp [hi])
    have hblock := hat.right.tail.tail.left
    have hjump := hat.right.tail.tail.right
    rw [codeLength_block hb] at hjump
    have hend : ip + codeLength (ic ++ ⟨.jumpIfFalse, blockSize body + 4⟩ :: ⟨.pop, 0⟩ ::
        (ib ++ pops (listDeclared body).length ++ ⟨.jump, blockSize alternative + 1⟩ :: ⟨.pop, 0⟩ ::
          (ia ++ pops (listDeclared alternative).length))) =
        ip + codeLength ic + 3 + 1 + blockSize body + 3 + (blockSize alternative + 1) := by
      have hsize := codeLength_block hb
      have hsize' := codeLength_block ha
      simp only [codeLength_append, codeLength_cons, Instr.size, Opcode.width] at hsize hsize' ⊢
      omega
    have hplace : ip + (codeLength ic + blockSize body + 8) =
      ip + codeLength ic + 3 + 1 + blockSize body + 3 + 1 := by omega
    rw [exec, hend, ← hcond.size, Spot.skip_around, Spot.skip_around, hplace, ← Nat.add_assoc ip (codeLength ic) 4]
    refine branch_follows hat.right hjump (condition.eval_follows henter ic hcond hat.left h) (fun h => ?_) fun h => ?_
    · exact block_follows hb hblock h (listExec_follows henter σ.enter first body ib hb hbody hblock.left h)
    · rw [Nat.add_comm (blockSize alternative), ← Nat.add_assoc]
      exact block_follows ha hjump.tail.tail h (listExec_follows henter σ.enter _ alternative ia ha hother
        hjump.tail.tail.left h)
  | until_ condition body =>
    obtain ⟨ic, ib, hcond, hb, rfl⟩ := hc
    have hbody : k.callers = [] → NoReturn ib := fun hnil i hi => hret hnil i (by simp [hi])
    have hblock := hat.right.tail.tail.left
    have hloop := hat.right.tail.tail.right
    rw [codeLength_block hb] at hloop
    have hend : ip + codeLength (ic ++ ⟨.jumpIfTrue, blockSize body + 4⟩ :: ⟨.pop, 0⟩ ::
        (ib ++ pops (listDeclared body).length ++ [⟨.loop, condition.size + blockSize body + 7⟩, ⟨.pop, 0⟩])) =
        ip + condition.size + blockSize body + 8 := by
      have hsize := codeLength_block hb
      simp only [codeLength_append, codeLength_cons, codeLength_nil, Instr.size, Opcode.width, hcond.size] at hsize ⊢
      omega
    rw [exec, hend, Spot.skip_around, ← Nat.add_assoc ip condition.size 4]
    have hsize := hcond.size
    have hguard := hat.right
    rw [hsize] at hguard hblock hloop
    refine loop_follows hguard hloop (fun h => ?_) (fun h => ?_) h (Nat.le_refl _)
    · have hvalue := condition.eval_follows henter ic hcond hat.left h
      rwa [hsize] at hvalue
    · have hlist := listExec_follows henter σ.enter first body ib hb hbody hblock.left h
      exact block_follows hb hblock h hlist
  | out value =>
    cases value with
    | none =>
      obtain rfl := hc
      have hcallers : k.callers ≠ [] := fun hnil => hret hnil ⟨.out, 0⟩ (by simp [returnCode]) rfl
      rw [exec]
      refine (h.pushes hat (fun _ => rfl) .null).bind fun h => ?_
      exact out_follows h hat.tail hcallers
    | some e =>
      obtain ⟨ie, he, rfl⟩ := hc
      have hcallers : k.callers ≠ [] := fun hnil => hret hnil ⟨.out, 0⟩ (by simp) rfl
      rw [exec]
      refine (e.eval_follows henter ie he hat.left h).bind fun h => ?_
      exact out_follows h hat.right hcallers
  | block mark body =>
    obtain ⟨ib, hb, rfl⟩ := hc
    have hbody : k.callers = [] → NoReturn ib := fun hnil i hi => hret hnil i (by simp [hi])
    rw [exec, codeLength_block hb]
    exact block_follows hb hat h (listExec_follows henter σ.enter first body ib hb hbody hat.left h)
  | var x initial =>
    cases initial with
    | none =>
      obtain ⟨js, hj, rfl⟩ := hc
      rw [exec, codeLength_cons, ← Nat.add_assoc]
      refine (h.pushes hat (fun _ => rfl) .null).bind fun h => ?_
      exact (settles_follows hj hat.tail h).bind fun h => .stay h
    | some e =>
      obtain ⟨ie, js, he, hj, rfl⟩ := hc
      rw [exec, codeLength_append, ← Nat.add_assoc]
      refine (e.eval_follows henter ie he hat.left h).bind fun h => ?_
      exact (settles_follows hj hat.right h).bind fun h => .stay h
  | fun_ x parameters body =>
    obtain ⟨i, f, ib, js, hi, hf, hcompiles, hb, hj, rfl⟩ := hc
    have hfunction : Denotes k.store (.function ⟨first + listFunctionCount body⟩)
        (.function ⟨first + listFunctionCount body⟩ (.named x parameters body first)) :=
          .function hf ⟨ib, hcompiles, hb⟩
    rw [exec, codeLength_cons, ← Nat.add_assoc]
    refine (h.constant hat hi hfunction).bind fun h => ?_
    exact (settles_follows hj hat.tail h).bind fun h => .stay h

theorem listExec_follows (henter : EnterFollows n enter) (σ : Scope) (first : Nat) (ds : List Decl) (is : List Instr)
    (hc : ListCode k.pool σ first ds is) (hret : k.callers = [] → NoReturn is) {ip : Nat} {m : Machine} {s : Scene}
    (hat : k.Has ip is) (h : Stage k σ.names ip m s []) :
    Follows k.limits (n + 1) m (Leads k (σ.afterAll ds).names (ip + codeLength is))
      ((listExec enter (n + 1) (k.around ip []) σ.isLocal first ds).run s) := by
  cases ds with
  | nil =>
    obtain rfl := hc
    rw [listExec]
    exact .stay h
  | cons d ds =>
    obtain ⟨id, js, hd, hds, rfl⟩ := hc
    have hfirst : k.callers = [] → NoReturn id := fun hnil i hi => hret hnil i (by simp [hi])
    have hrest : k.callers = [] → NoReturn js := fun hnil i hi => hret hnil i (by simp [hi])
    rw [listExec, codeLength_append, ← Nat.add_assoc, ← Code.size σ first d id hd]
    refine (exec_follows henter σ first d id hd hfirst hat.left h).bind fun {o s' m'} h => ?_
    cases o with
    | some v => exact .stay h
    | none =>
      have hlist := listExec_follows henter (σ.after d) _ ds js hds hrest hat.right h
      rwa [Scope.isLocal_after] at hlist

end

end Decl

end StackScript
