import StackScript.Proofs.Machine.Plain

/-! One step of a running machine. It works on the part of the stack that belongs to the innermost call, calls a
function, ends the innermost call or the run, or fails; and unless the run is over the machine is running again. -/
namespace StackScript
namespace Machine

/-! ### Calls -/

/-- What calling the value below its arguments comes to, by what that value is. -/
inductive Calls (m : Machine) (below : Array Value) (callee : Value) (args : Array Value) :
    EStateM.Result Halt Machine Unit → Prop
  | function {r : FunctionRef} {g : Function} (hr : callee = .function r) (hg : m.store.function? r = some g)
      (arity : args.size = g.arity.toNat) (depth : m.frames.length ≠ m.config.maxFrames) :
      Calls m below callee args (.ok () { m with frames := ⟨g, 0, below.size⟩ :: m.frames })
  | native {r : NativeRef} {n : Native} (hr : callee = .native r) (hn : m.store.native? r = some n)
      (arity : args.size = n.arity.toNat) :
      Calls m below callee args (.ok () { m with stack := below.push (n.call args.toList) })
  | fails {e : RuntimeError} (known : ∀ b, e ≠ .unknownOpcode b)
      (overflow : e = .stackOverflow → m.frames.length = m.config.maxFrames) :
      Calls m below callee args (.error (.failed e) m)

section
variable {m : Machine} {below args : Array Value} {callee : Value} {count : UInt8}

theorem exists_callee {xs : Array Value} {n : Nat} (h : n + 1 ≤ xs.size) :
    ∃ (below : Array Value) (callee : Value) (args : Array Value), xs = below.push callee ++ args ∧ args.size = n := by
  obtain ⟨ys, args, rfl, hargs⟩ : ∃ ys args : Array Value, xs = ys ++ args ∧ args.size = n := by
    refine ⟨xs.extract 0 (xs.size - n), xs.extract (xs.size - n), ?_, ?_⟩
    · rw [Array.extract_append_extract]
      simp
    · simp
      omega
  have hys : 0 + 1 ≤ ys.size := by
    rw [Array.size_append] at h
    omega
  obtain ⟨below, callee, rfl, -⟩ := exists_push hys
  exact ⟨below, callee, args, rfl, hargs⟩

theorem calls_callBelow (hm : m.IsSound) (h : m.stack = below.push callee ++ args) (hc : args.size = count.toNat)
    (hroom : m.stack.size ≤ m.config.stackSize) : Calls m below callee args ((callBelow count).run m) := by
  have hcallee : m.store.Sound callee := hm.stack callee (by rw [h]; simp)
  have hfail : ∀ {e : RuntimeError}, (∀ b, e ≠ .unknownOpcode b) → e ≠ .stackOverflow →
      Calls m below callee args (.error (.failed e) m) := fun known he => .fails known fun hover => absurd hover he
  by_cases hfun : ∃ r, callee = .function r
  · obtain ⟨r, rfl⟩ := hfun
    cases hcallee with
    | @function _ g t hg ht hs =>
      rw [run_callBelow_function h hc rfl hg]
      by_cases ha : count = g.arity
      · by_cases hd : m.frames.length = m.config.maxFrames
        · rw [run_callFunction_full ha hd]
          exact .fails (fun _ => RuntimeError.noConfusion) fun _ => hd
        · rw [run_callFunction h hc ha hd]
          exact .function rfl hg (by rw [hc, ha]) hd
      · rw [run_callFunction_arity ha]
        exact hfail (fun _ => RuntimeError.noConfusion) RuntimeError.noConfusion
  · by_cases hnat : ∃ r, callee = .native r
    · obtain ⟨r, rfl⟩ := hnat
      cases hcallee with
      | native hr =>
        obtain ⟨n, hn⟩ := Option.isSome_iff_exists.1 hr
        rw [run_callBelow_native h hc rfl hn]
        by_cases ha : count = n.arity
        · rw [run_callNative h hc ha hroom]
          exact .native rfl hn (by rw [hc, ha])
        · rw [run_callNative_arity ha]
          exact hfail (fun _ => RuntimeError.noConfusion) RuntimeError.noConfusion
    · rw [run_callBelow_fail h hc (fun r hr => hfun ⟨r, hr⟩) fun r hr => hnat ⟨r, hr⟩]
      exact hfail (fun _ => RuntimeError.noConfusion) RuntimeError.noConfusion

end

/-! ### Steps -/

/-- Why a stack overflow can come: a call when all calls are in use, or an instruction that raises a full stack. -/
def Overflows (m : Machine) (i : Instr) : Prop :=
  (i.op = .call ∧ m.frames.length = m.config.maxFrames) ∨ (i.takes < i.gives ∧ m.config.stackSize ≤ m.stack.size)

/-- What a step comes to in a call with others waiting for it. -/
inductive Comes (m : Machine) (f : Frame) (callers : List Frame) (i : Instr) :
    EStateM.Result Halt Machine Unit → Prop
  /-- The call goes on. -/
  | works {n : Nat} {m' : Machine} (goesOn : n ∈ i.successors f.ip)
      (works : Works f.base i.takes i.gives (m.goTo n) m') : Comes m f callers i (.ok () m')
  /-- A function is called, with what is on the stack. -/
  | calls {below args : Array Value} {r : FunctionRef} {g : Function} (call : i.op = .call)
      (stack : m.stack = below.push (.function r) ++ args) (hg : m.store.function? r = some g)
      (count : args.size = i.operand) (arity : args.size = g.arity.toNat)
      (depth : m.frames.length ≠ m.config.maxFrames) :
      Comes m f callers i
        (.ok () { m with frames := ⟨g, 0, below.size⟩ :: { f with ip := f.ip + i.size } :: callers })
  /-- The call ends, and one that has waited for it goes on. -/
  | returns {g : Frame} {waiting : List Frame} {below own : Array Value} {v : Value} (out : i.op = .out)
      (outer : callers = g :: waiting) (stack : m.stack = (below ++ own).push v) (base : below.size = f.base) :
      Comes m f callers i (.ok () { m with frames := g :: waiting, stack := below.push v })
  /-- The script ends. -/
  | finishes {w v : Value} (out : i.op = .out) (outer : callers = []) (stack : m.stack = #[w, v]) :
      Comes m f callers i (.error .finished { m with frames := [], stack := #[] })
  | fails {e : RuntimeError} {m' : Machine} (fails : Fails (m.Overflows i) (m.goTo (f.ip + i.size)) e m') :
      Comes m f callers i (.error (.failed e) m')

section
variable {m : Machine} {f : Frame} {callers : List Frame} {pre post : List Instr} {i : Instr}

/-- The height of the stack is enough for the operands, and slot zero is below them. -/
theorem At.takes (h : m.At f callers pre i post) : f.base + (1 + i.takes) ≤ m.stack.size := by
  have htakes := h.stands.verified.takes rfl
  rw [h.height, h.stands.ip]
  exact Nat.add_le_add_left htakes _

theorem At.run_step (h : m.At f callers pre i post) : step.run m = i.perform.run (m.goTo (f.ip + i.size)) := by
  rw [Machine.run_step h.frames h.stands.code h.stands.ip, h.stands.ip]

theorem IsSound.goTo (hm : m.IsSound) (h : m.frames = f :: callers) (ip : Nat) : (m.goTo ip).IsSound := by
  rw [goTo_eq h]
  exact ⟨hm.stack, hm.globals, hm.names, hm.natives⟩

/-- A plain instruction goes on with the next one. -/
theorem mem_successors (h : i.op ≠ .jump ∧ i.op ≠ .loop ∧ i.op ≠ .out) (offset : Nat) :
    offset + i.size ∈ i.successors offset := by
  obtain ⟨op, n⟩ := i
  cases op
  case jump => exact absurd rfl h.1
  case loop => exact absurd rfl h.2.1
  case out => exact absurd rfl h.2.2
  all_goals exact List.mem_cons_self

theorem comes_plain (hi : IsPlain i.op) (h : m.At f callers pre i post) (hm : m.IsSound) :
    Comes m f callers i (step.run m) := by
  have hframes := h.frames
  rw [h.run_step]
  have hgo : m.goTo (f.ip + i.size) = { m with frames := { f with ip := f.ip + i.size } :: callers } :=
    goTo_eq hframes _
  have hplain : Plain i f.base (m.goTo (f.ip + i.size)) (i.perform.run (m.goTo (f.ip + i.size))) := by
    have hsound := hm.goTo hframes (f.ip + i.size)
    rw [hgo] at hsound ⊢
    exact plain_perform (f := { f with ip := f.ip + i.size }) hi hsound rfl h.stands.constants
      (h.stands.code.fits i (by simp))
      (h.stands.verified.refers rfl) (by rw [← h.stands.ip]; exact h.height) (h.stands.verified.takes rfl)
  generalize i.perform.run (m.goTo (f.ip + i.size)) = result at hplain ⊢
  cases hplain with
  | works hw => exact .works (mem_successors ⟨hi.1, hi.2.2.2.1, hi.2.2.2.2.2⟩ _) hw
  | fails hf =>
    refine .fails ⟨hf.toKeeps, hf.known, fun he => .inr ?_⟩
    have hreason := hf.overflow he
    rwa [hgo] at hreason

/-- Jumps go on in the same call. -/
theorem comes_jump (hi : i.op = .jump ∨ i.op = .jumpIfFalse ∨ i.op = .jumpIfTrue ∨ i.op = .loop)
    (h : m.At f callers pre i post) (hm : m.IsSound) : Comes m f callers i (step.run m) := by
  have hframes := frames_goTo h.frames (f.ip + i.size)
  have hstep := h.run_step
  have hgoes : ∀ {n}, n ∈ i.successors f.ip → i.takes = i.gives →
      Comes m f callers i (.ok () (m.goTo n)) := fun {n} hn heq => by
    refine .works hn ?_
    have hrefl := Works.refl (hm.goTo h.frames n) f.base
    exact ⟨hrefl.toKeeps, by rw [heq], hrefl.below, hrefl.room⟩
  have hstay : ∀ {k}, (m.goTo (f.ip + i.size)).goTo k = m.goTo k := goTo_goTo _ _ _
  have htop : i.takes = 1 → ∃ v, (peek 0).run (m.goTo (f.ip + i.size)) = .ok v (m.goTo (f.ip + i.size)) := fun ht => by
    have hsize := h.takes
    obtain ⟨rest, v, hstack, -⟩ := exists_push (show f.base + 1 ≤ m.stack.size by omega)
    have hgo : (m.goTo (f.ip + i.size)).stack = rest.push v := by
      rw [goTo_eq h.frames]
      exact hstack
    exact ⟨v, run_peek_zero hgo⟩
  rw [hstep]
  obtain ⟨op, n⟩ := i
  obtain rfl | rfl | rfl | rfl := hi
  · change Comes _ _ _ _ ((jumpForward n).run _)
    rw [run_jumpForward hframes, hstay]
    exact hgoes (List.mem_singleton.2 rfl) rfl
  · obtain ⟨v, hpeek⟩ := htop rfl
    change Comes _ _ _ _ ((peek 0 >>= _).run _)
    rw [run_bind_ok hpeek]
    split
    · rw [run_jumpForward hframes, hstay]
      exact hgoes (List.mem_cons.2 (.inr (List.mem_singleton.2 rfl))) rfl
    · exact hgoes List.mem_cons_self rfl
  · obtain ⟨v, hpeek⟩ := htop rfl
    change Comes _ _ _ _ ((peek 0 >>= _).run _)
    rw [run_bind_ok hpeek]
    split
    · exact hgoes List.mem_cons_self rfl
    · rw [run_jumpForward hframes, hstay]
      exact hgoes (List.mem_cons.2 (.inr (List.mem_singleton.2 rfl))) rfl
  · have hback : n ≤ f.ip + 3 := by
      rw [h.stands.ip]
      exact h.stands.back _ _ _ rfl rfl
    change Comes _ _ _ _ ((jumpBack n).run _)
    rw [run_jumpBack hframes hback, hstay]
    exact hgoes (List.mem_singleton.2 rfl) rfl

/-- A call instruction finds the callee below its arguments, all of them above slot zero of its own call. -/
theorem calls_step (hi : i.op = .call) (h : m.At f callers pre i post) (hm : m.Running) :
    ∃ (below : Array Value) (callee : Value) (args : Array Value), m.stack = below.push callee ++ args ∧
      args.size = i.operand ∧ f.base < below.size ∧
      Calls (m.goTo (f.ip + i.size)) below callee args (step.run m) := by
  have hlt : i.operand < 256 ^ 1 := by
    have hfits := h.stands.code.fits i (by simp)
    rwa [Instr.Fits, hi] at hfits
  have htakes : i.takes = i.operand + 1 := by rw [Instr.takes, hi]
  have hperform : i.perform = callBelow i.operand.toUInt8 := by rw [Instr.perform, hi]
  have hcount : i.operand.toUInt8.toNat = i.operand := UInt8.toNat_ofNat_of_lt' hlt
  have hsize := h.takes
  obtain ⟨below, callee, args, hstack, hargs⟩ := exists_callee (show i.operand + 1 ≤ m.stack.size by omega)
  refine ⟨below, callee, args, hstack, hargs, ?_, ?_⟩
  · rw [hstack, Array.size_append, Array.size_push] at hsize
    omega
  · have hsound := hm.sound.goTo h.frames (f.ip + i.size)
    rw [h.run_step, hperform]
    rw [goTo_eq h.frames] at hsound ⊢
    exact calls_callBelow hsound hstack (hargs.trans hcount.symm) hm.room

theorem comes_call (hi : i.op = .call) (h : m.At f callers pre i post) (hm : m.Running) :
    Comes m f callers i (step.run m) := by
  have hgo : m.goTo (f.ip + i.size) = { m with frames := { f with ip := f.ip + i.size } :: callers } :=
    goTo_eq h.frames _
  have hsound := hm.sound.goTo h.frames (f.ip + i.size)
  have hdepth : m.frames.length = callers.length + 1 := by rw [h.frames, List.length_cons]
  obtain ⟨below, callee, args, hstack, hargs, hbase, hcalls⟩ := calls_step hi h hm
  generalize step.run m = result at hcalls ⊢
  cases hcalls with
  | function hr hg arity depth =>
    rw [hgo] at depth hg ⊢
    subst hr
    exact .calls hi hstack hg hargs arity fun heq => depth ((List.length_cons).trans (hdepth.symm.trans heq))
  | native hr hn arity =>
    have hnext := mem_successors (by rw [hi]; exact ⟨Opcode.noConfusion, Opcode.noConfusion, Opcode.noConfusion⟩) f.ip
    refine .works hnext ?_
    have htakes : i.takes = args.size + 1 := by rw [Instr.takes, hi, hargs]
    have hgives : i.gives = 1 := by rw [Instr.gives, hi]
    have hown : (m.goTo (f.ip + i.size)).stack = below ++ (#[callee] ++ args) := by
      rw [hgo, ← Array.append_assoc, Array.append_singleton]
      exact hstack
    have hresult := hsound.natives _ (Array.mem_of_getElem? hn) (m.goTo (f.ip + i.size)).store args.toList fun v hv =>
      hsound.stack v (by
        rw [hown]
        simp [Array.mem_toList_iff.1 hv])
    have hcut := works_cut hsound hown (Nat.le_of_lt hbase) (by simp) hresult
    rw [htakes, hgives]
    rwa [Array.size_append, Nat.add_comm] at hcut
  | fails known overflow =>
    refine .fails ((Works.refl hsound 0).fails known fun he => .inl ⟨hi, ?_⟩)
    have hfull := overflow he
    rw [hgo] at hfull
    exact (hdepth.trans List.length_cons.symm).trans hfull

theorem comes_out (hi : i.op = .out) (h : m.At f callers pre i post) (hm : m.Running) :
    Comes m f callers i (step.run m) := by
  have hgo : m.goTo (f.ip + i.size) = { m with frames := { f with ip := f.ip + i.size } :: callers } :=
    goTo_eq h.frames _
  have hperform : i.perform = returnTop := by rw [Instr.perform, hi]; rfl
  have htakes : i.takes = 1 := by rw [Instr.takes, hi]
  have hsize := h.takes
  have hbelow := h.below
  rw [h.run_step, hperform, hgo]
  cases callers with
  | nil =>
    obtain hbase : f.base = 0 := by
      generalize htop : f.base + 1 = top at hbelow
      cases hbelow
      omega
    obtain ⟨rest, w, v, hstack, -⟩ := exists_push_push (show 0 + 2 ≤ m.stack.size by omega)
    -- the script gives its value back when there is nothing else on the stack
    obtain rfl : rest = #[] := by
      have hheight := h.height
      rw [h.stands.ip, h.alone rfl rfl hi, hbase, hstack] at hheight
      simpa using hheight
    have hrun : returnTop.run { m with frames := [{ f with ip := f.ip + i.size }] } =
      .error .finished { m with frames := [], stack := #[] } := run_returnTop_script rfl hstack
    rw [hrun]
    exact .finishes hi rfl hstack
  | cons g waiting =>
    obtain ⟨rest, v, hstack, -⟩ := exists_push (show 0 + 1 ≤ m.stack.size by omega)
    obtain ⟨below, own, hrest, hbase⟩ : ∃ below own : Array Value, rest = below ++ own ∧ below.size = f.base := by
      rw [hstack, Array.size_push] at hsize
      refine ⟨rest.extract 0 f.base, rest.extract f.base, ?_, ?_⟩
      · rw [Array.extract_append_extract, Nat.max_eq_right (by omega), Nat.min_eq_left (Nat.zero_le _),
          Array.extract_size]
      · simp
        omega
    rw [hrest] at hstack
    have hrun : returnTop.run { m with frames := { f with ip := f.ip + i.size } :: g :: waiting } =
        .ok () { m with frames := g :: waiting, stack := below.push v } :=
      run_returnTop (f := { f with ip := f.ip + i.size }) rfl hstack hbase hm.room
    rw [hrun]
    exact .returns hi rfl hstack hbase

/-- What a step comes to, by its instruction. -/
theorem comes_step (h : m.At f callers pre i post) (hm : m.Running) : Comes m f callers i (step.run m) := by
  by_cases hcall : i.op = .call
  · exact comes_call hcall h hm
  by_cases hout : i.op = .out
  · exact comes_out hout h hm
  by_cases hjump : i.op = .jump ∨ i.op = .jumpIfFalse ∨ i.op = .jumpIfTrue ∨ i.op = .loop
  · exact comes_jump hjump h hm.sound
  · simp only [not_or] at hjump
    exact comes_plain ⟨hjump.1, hjump.2.1, hjump.2.2.1, hjump.2.2.2, hcall, hout⟩ h hm.sound

/-! ### What a step preserves -/

theorem Comes.config {m' : Machine} (hcomes : Comes m f callers i (.ok () m')) : m'.config = m.config := by
  cases hcomes with
  | works _ hw =>
    rw [hw.config]
    exact config_goTo m _
  | calls => rfl
  | returns => rfl

/-- After a step that is not the last one the machine is running. -/
theorem Comes.running {m' : Machine} (hcomes : Comes m f callers i (.ok () m')) (h : m.At f callers pre i post)
    (hm : m.Running) : m'.Running := by
  cases hcomes with
  | @works n _ hn hw =>
    have hgo : m.goTo n = { m with frames := { f with ip := n } :: callers } := goTo_eq h.frames _
    rw [h.stands.ip] at hn
    obtain ⟨pre', j, post', heq, hstands, hheight⟩ := h.stands.goesOn hn
    have hsize := hw.size
    have hroom := hw.room
    have hstore := hw.store
    have hframes := hw.frames
    have hconfig := hw.config
    have htakes := h.takes
    have htop := h.height
    rw [hgo] at hsize hroom hstore hframes hconfig
    refine ⟨hw.sound, by rw [hframes]; exact List.cons_ne_nil _ _, ?_, ?_, ?_⟩
    · rw [hframes]
      refine .cons (hstands.mono hstore) ?_ (fun halone => heq ▸ h.alone halone) (h.below.mono hstore)
      rw [heq]
      change m'.stack.size = f.base + f.function.height (pre ++ i :: post) n
      change m'.stack.size + i.takes = m.stack.size + i.gives at hsize
      omega
    · have hdepth := hm.depth
      rw [h.frames] at hdepth
      rw [hframes, hconfig]
      exact hdepth
    · rw [hconfig]
      exact hroom hm.room
  | @calls below args r g hop hstack hg count arity depth =>
    have hsound : m.store.Sound (.function r) := hm.sound.stack _ (by rw [hstack]; simp)
    obtain ⟨j, rest, hstands, hbegin⟩ := hsound.stands hg below.size
    have hgives : i.gives = 1 := by rw [Instr.gives, hop]
    have htakes : i.takes = args.size + 1 := by rw [Instr.takes, hop, count]
    -- the caller goes on behind the call, with one value in the place of the callee
    have hnext : f.ip + i.size ∈ i.successors f.ip :=
      mem_successors (by rw [hop]; exact ⟨Opcode.noConfusion, Opcode.noConfusion, Opcode.noConfusion⟩) _
    rw [h.stands.ip] at hnext
    obtain ⟨pre', k, post', heq, hcaller, hheight⟩ := h.stands.goesOn hnext
    rw [← h.stands.ip] at hcaller hheight
    have hsize : m.stack.size = below.size + 1 + args.size := by rw [hstack, Array.size_append, Array.size_push]
    have htop := h.height
    refine ⟨⟨hm.sound.stack, hm.sound.globals, hm.sound.names, hm.sound.natives⟩, List.cons_ne_nil _ _, ?_, ?_, hm.room⟩
    · refine .cons hstands ?_ (fun hnil => absurd hnil (List.cons_ne_nil _ _)) (.cons hcaller ?_ ?_ h.below)
      · change m.stack.size = below.size + g.height ([] ++ j :: rest) 0
        omega
      · rw [heq]
        change below.size + 1 = f.base + f.function.height (pre ++ i :: post) (f.ip + i.size)
        omega
      · exact fun halone => heq ▸ h.alone halone
    · have hdepth := hm.depth
      rw [h.frames] at hdepth depth
      exact Nat.lt_of_le_of_ne hdepth depth
  | @returns g waiting below own v hop outer hstack base =>
    have hbelow := h.below
    have hdepth := hm.depth
    have hroom := hm.room
    rw [h.frames, outer] at hdepth
    rw [outer, ← base] at hbelow
    rw [hstack, Array.size_push, Array.size_append] at hroom
    refine ⟨⟨fun w hw => hm.sound.stack w ?_, hm.sound.globals, hm.sound.names, hm.sound.natives⟩,
      List.cons_ne_nil _ _, ?_, ?_, ?_⟩
    · rw [hstack]
      obtain hw | rfl := Array.mem_push.1 hw
      · simp [hw]
      · simp
    · change Tiles m.store (g :: waiting) (below.push v).size
      rwa [Array.size_push]
    · exact Nat.le_of_succ_le hdepth
    · change (below.push v).size ≤ m.config.stackSize
      rw [Array.size_push]
      omega

/-! ### Tracing -/

theorem exists_mapM {s : Store} (vs : List Value) (h : ∀ v ∈ vs, s.Sound v) :
    ∃ texts, vs.mapM s.escaped? = some texts := by
  induction vs with
  | nil => exact ⟨[], rfl⟩
  | cons v vs ih =>
    obtain ⟨text, htext⟩ := Option.isSome_iff_exists.1 (h v (by simp)).shows.isSome_escaped
    obtain ⟨texts, htexts⟩ := ih fun w hw => h w (List.mem_cons_of_mem v hw)
    exact ⟨text :: texts, by simp [htext, htexts]⟩

/-- What comes next can always be shown. -/
theorem exists_traceText (h : m.At f callers pre i post) (hm : m.IsSound) : ∃ text, m.traceText? = some text := by
  obtain ⟨items, hitems⟩ := exists_mapM m.stack.toList fun v hv => hm.stack v (Array.mem_toList_iff.1 hv)
  obtain ⟨line, hline⟩ := Option.isSome_iff_exists.1 (h.stands.code.isSome_instructionText
    (Instr.Refers.known (h.stands.verified.refers rfl)) fun v hv => (h.stands.constants v hv).shows)
  obtain ⟨stack, hstack⟩ : ∃ text, m.stackText? = some text := by
    rw [stackText?, hitems]
    exact ⟨_, rfl⟩
  refine ⟨stack ++ line, ?_⟩
  rw [traceText?, hstack, h.frames]
  simp only [Option.bind_eq_bind, Option.bind_some, List.head?_cons, h.stands.ip, hline]

/-- If that is asked for it is noted, and nothing else happens. -/
theorem run_observe {text : String} (h : m.traceText? = some text) :
    observe.run m = .ok () { m with console := m.console.note (if m.config.traceExecution then text else "") } := by
  by_cases htrace : m.config.traceExecution
  · rw [observe, run_bind_ok (EStateM.run_get m), if_pos htrace, if_pos htrace, run_bind_ok (EStateM.run_get m), h,
      run_bind_ok (run_orStuck_some _ _ _)]
    rfl
  · rw [observe, run_bind_ok (EStateM.run_get m), if_neg htrace, if_neg htrace, Console.note, String.append_empty]
    rfl

theorem exists_observe (h : m.At f callers pre i post) (hm : m.IsSound) :
    ∃ console, observe.run m = .ok () { m with console } := by
  obtain ⟨text, htext⟩ := exists_traceText h hm
  exact ⟨_, run_observe htext⟩

/-- What a step comes to, when it has been shown before. -/
theorem comes_cycle (h : m.At f callers pre i post) (hm : m.Running) :
    ∃ console, Comes { m with console } f callers i (cycle.run m) := by
  obtain ⟨console, hrun⟩ := exists_observe h hm.sound
  refine ⟨console, ?_⟩
  rw [cycle, run_bind_ok hrun]
  exact comes_step (h.with_console _) (hm.with_console _)

theorem calls_cycle (hi : i.op = .call) (h : m.At f callers pre i post) (hm : m.Running) :
    ∃ (below : Array Value) (callee : Value) (args : Array Value) (console : Console),
      m.stack = below.push callee ++ args ∧ args.size = i.operand ∧ f.base < below.size ∧
      Calls (goTo { m with console } (f.ip + i.size)) below callee args (cycle.run m) := by
  obtain ⟨console, hrun⟩ := exists_observe h hm.sound
  obtain ⟨below, callee, args, hstack, hargs, hbase, hcalls⟩ :=
    calls_step hi (h.with_console console) (hm.with_console console)
  refine ⟨below, callee, args, console, hstack, hargs, hbase, ?_⟩
  rwa [cycle, run_bind_ok hrun]

/-- Unless it is the last one, a step goes from a running machine to a running machine. -/
theorem Running.goesOn (hm : m.Running) {m' : Machine} (h : cycle.run m = .ok () m') : m'.Running := by
  obtain ⟨f, callers, pre, i, post, hat⟩ := hm.at
  obtain ⟨console, hcomes⟩ := comes_cycle hat hm
  rw [h] at hcomes
  exact hcomes.running (hat.with_console console) (hm.with_console console)

end

end Machine
end StackScript
