import StackScript.Proofs.Machine.History

/-! A call sees to its own part of the stack only. Whatever happens between its beginning and its end, calls in it
included, what lies below its slot zero stays, and so do the calls that wait for it. -/
namespace StackScript

/-- The calls further out begin further down. -/
theorem Tiles.base_lt {s : Store} {callers : List Frame} {top : Nat} (h : Tiles s callers top) {g : Frame}
    (hg : g ∈ callers) : g.base < top := by
  induction h with
  | nil => cases hg
  | @cons f callers pre post i top stands height _ _ ih =>
    have htakes := stands.verified.takes rfl
    rw [← stands.ip] at htakes
    obtain rfl | hg := List.mem_cons.1 hg
    · omega
    · have hlt := ih hg
      omega

namespace Machine
variable {m a b c d : Machine} {f g : Frame} {callers inner outer : List Frame} {pre post : List Instr} {i : Instr}

/-- The calls from some place in the row of calls outward, and what lies below the first of them, are those of another
state, but for how far the first one has come. -/
structure Beneath (g : Frame) (outer : List Frame) (m m' : Machine) : Prop where
  frames : ∃ inner ip, m'.frames = inner ++ { g with ip } :: outer
  below : ∀ k < g.base, m'.stack[k]? = m.stack[k]?

/-- A step leaves alone what lies below a call and the calls that wait for it, or ends that call with its value. -/
theorem Comes.beneath (hcomes : Comes c f callers i (.ok () d)) (h : c.At f callers pre i post)
    (hc : Beneath g outer m c) :
    Beneath g outer m d ∨
      ∃ (v : Value) (own below : Array Value), d.frames = outer ∧ c.stack = (below ++ own).push v ∧
        d.stack = below.push v ∧ below.size = g.base := by
  obtain ⟨⟨inner, ip, hframes⟩, hbelow⟩ := hc
  have hrow : f :: callers = inner ++ { g with ip } :: outer := h.frames.symm.trans hframes
  -- the innermost call is the one in question, or one in it
  have hbase : g.base ≤ f.base := by
    rcases inner with - | ⟨f', inner⟩
    · obtain ⟨rfl, -⟩ := List.cons.inj hrow
      exact Nat.le_refl _
    · obtain ⟨rfl, rfl⟩ := List.cons.inj hrow
      have hlt := h.below.base_lt (g := { g with ip }) (by simp)
      exact Nat.le_of_lt_succ hlt
  cases hcomes with
  | @works n _ _ hw =>
    refine .inl ⟨?_, fun k hk => ?_⟩
    · have hd := hw.frames
      rw [frames_goTo h.frames] at hd
      rw [hd]
      rcases inner with - | ⟨f', inner⟩
      · obtain ⟨rfl, rfl⟩ := List.cons.inj hrow
        exact ⟨[], n, rfl⟩
      · obtain ⟨rfl, rfl⟩ := List.cons.inj hrow
        exact ⟨{ f with ip := n } :: inner, ip, rfl⟩
    · have hk' := hw.below k (Nat.lt_of_lt_of_le hk hbase)
      rw [goTo_eq h.frames] at hk'
      exact hk'.trans (hbelow k hk)
  | calls =>
    refine .inl ⟨?_, hbelow⟩
    rcases inner with - | ⟨f', inner⟩
    · obtain ⟨rfl, rfl⟩ := List.cons.inj hrow
      exact ⟨[_], _, rfl⟩
    · obtain ⟨rfl, rfl⟩ := List.cons.inj hrow
      exact ⟨_ :: _ :: inner, ip, rfl⟩
  | @returns g' waiting below own v _ hcallers hstack hsize =>
    rcases inner with - | ⟨f', inner⟩
    · obtain ⟨rfl, rfl⟩ := List.cons.inj hrow
      exact .inr ⟨v, own, below, hcallers.symm, hstack, rfl, hsize⟩
    · obtain ⟨rfl, rfl⟩ := List.cons.inj hrow
      refine .inl ⟨⟨inner, ip, hcallers.symm⟩, fun k hk => ?_⟩
      have hlt : k < below.size := by omega
      rw [← hbelow k hk, hstack]
      change (below.push v)[k]? = ((below ++ own).push v)[k]?
      rw [Array.getElem?_push, if_neg (Nat.ne_of_lt hlt), Array.getElem?_push, if_neg (by simp; omega),
        Array.getElem?_append_left hlt]

/-- Steps that stay in a call, calls in it included: at each of them there are so many calls or more. -/
inductive During (depth : Nat) : Machine → Machine → Prop
  | refl (m : Machine) : During depth m m
  | tail {m m' m'' : Machine} (h : During depth m m') (step : cycle.run m' = .ok () m'')
      (deep : depth ≤ m''.frames.length) : During depth m m''

theorem During.running {depth : Nat} (h : During depth b c) (hb : b.Running) : c.Running := by
  induction h with
  | refl => exact hb
  | tail _ step _ ih => exact ih.goesOn step

theorem During.beneath (h : During (outer.length + 1) b c) (hb : b.Running) (hg : Beneath g outer m b) :
    Beneath g outer m c := by
  induction h with
  | refl => exact hg
  | @tail c d hsteps step deep ih =>
    have hc := hsteps.running hb
    obtain ⟨f, callers, pre, i, post, hat⟩ := hc.at
    obtain ⟨console, hcomes⟩ := comes_cycle hat hc
    rw [step] at hcomes
    obtain hd | ⟨v, own, below, houter, -⟩ := hcomes.beneath (hat.with_console console) ⟨ih.frames, ih.below⟩
    · exact hd
    · rw [houter] at deep
      exact absurd deep (Nat.not_succ_le_self _)

/-- An array that agrees with another one, as far as that goes, begins with it. -/
theorem take_eq {below xs : Array Value} (h : ∀ k < below.size, xs[k]? = below[k]?) : xs.take below.size = below := by
  have hlt : ∀ k < below.size, k < xs.size := fun k hk => by
    have hsome := h k hk
    rw [Array.getElem?_eq_getElem hk] at hsome
    exact (Array.getElem?_eq_some_iff.1 hsome).1
  have hsize : below.size ≤ xs.size := by
    by_cases hzero : below.size = 0
    · omega
    · have hlast := hlt (below.size - 1) (by omega)
      omega
  refine Array.ext (by simpa using hsize) fun k _ hk => ?_
  have hsame := h k hk
  rw [Array.getElem?_eq_getElem hk, Array.getElem?_eq_getElem (hlt k hk)] at hsame
  simpa using Option.some.inj hsame

/-- What is below a call is there when it ends, and its value comes next. -/
theorem Beneath.ends {below rest : Array Value} (h : Beneath g outer m c) (hc : c.Running)
    (hstack : m.stack = below ++ rest) (hbase : below.size = g.base) :
    c.stack.take below.size = below ∧
      ∀ d, cycle.run c = .ok () d → d.frames.length ≤ outer.length →
        ∃ v, c.stack.back? = some v ∧ d.stack = below.push v ∧ d.frames = outer := by
  have hbelow : ∀ k < below.size, c.stack[k]? = below[k]? := fun k hk => by
    rw [h.below k (hbase ▸ hk), hstack, Array.getElem?_append_left hk]
  refine ⟨take_eq hbelow, fun d hd hle => ?_⟩
  obtain ⟨f, callers, pre, i, post, hat⟩ := hc.at
  obtain ⟨console, hcomes⟩ := comes_cycle hat hc
  rw [hd] at hcomes
  obtain ⟨⟨inner, ip, hframes⟩, -⟩ | ⟨v, own, below', houter, htop, hend, hsize⟩ :=
    hcomes.beneath (hat.with_console console) ⟨h.frames, h.below⟩
  · rw [hframes, List.length_append, List.length_cons] at hle
    omega
  · have hsame : below' = below := by
      rw [← take_eq hbelow, hbase, ← hsize]
      refine (take_eq fun k hk => ?_).symm
      change c.stack = (below' ++ own).push v at htop
      rw [htop, Array.getElem?_push, if_neg (by simp; omega), Array.getElem?_append_left hk]
    change c.stack = (below' ++ own).push v at htop
    rw [hsame] at hend
    exact ⟨v, by rw [htop, Array.back?_push], hend, houter⟩

/-- Calls are isolated. At a call instruction of any run, the callee is on the stack below its arguments, as many as the
instruction says, and all of them are above slot zero of the caller. If the callee is a function, these are the first slots of the new call; as long as it lasts, what is
below them and the calls that wait for it stay as they are; and when it ends, its value comes in their place, and the
caller goes on behind the instruction. A function of the host gets the arguments in order, and its result comes in the
place of the callee and the arguments. -/
theorem call_isolated (hm : m.Idle) {source : String} (ha : m.Reaches source a) (hf : a.frames = f :: callers)
    (hop : f.function.bytecode.opAt? f.ip = some .call) (h : cycle.run a = .ok () b) :
    ∃ (below : Array Value) (callee : Value) (args : Array Value),
      a.stack = below.push callee ++ args ∧ f.base < below.size ∧ args.size < 256 ∧
      f.function.bytecode.code[f.ip + 1]? = some args.size.toUInt8 ∧
      ((∃ r g, callee = .function r ∧ a.store.function? r = some g ∧ g.arity.toNat = args.size ∧
          b.stack = below.push callee ++ args ∧
          b.frames = ⟨g, 0, below.size⟩ :: { f with ip := f.ip + 2 } :: callers ∧
          ∀ c, During b.frames.length b c →
            (∃ inner ip, c.frames = inner ++ ⟨g, ip, below.size⟩ :: { f with ip := f.ip + 2 } :: callers) ∧
            c.stack.take below.size = below ∧
            ∀ d, cycle.run c = .ok () d → d.frames.length < b.frames.length →
              ∃ v, c.stack.back? = some v ∧ d.stack = below.push v ∧
                d.frames = { f with ip := f.ip + 2 } :: callers) ∨
        ∃ r n, callee = .native r ∧ a.store.native? r = some n ∧ n.arity.toNat = args.size ∧
          b.stack = below.push (n.call args.toList) ∧ b.frames = { f with ip := f.ip + 2 } :: callers) := by
  obtain ⟨hrunning, -⟩ := hm.reaches ha
  obtain ⟨f', callers', pre, i, post, hat⟩ := hrunning.at
  obtain ⟨rfl, rfl⟩ := List.cons.inj (hf.symm.trans hat.frames)
  have hi : i.op = .call := by
    rw [hat.stands.ip, hat.stands.code.opAt?] at hop
    exact Option.some.inj hop
  have hsize : i.size = 2 := by rw [Instr.size, hi]; rfl
  have hfits : i.operand < 256 ^ i.op.width := hat.stands.code.fits i (by simp)
  have hbyte := hat.stands.code.operandByte (by rw [hi]; rfl)
  have hb := hrunning.goesOn h
  obtain ⟨below, callee, args, console, hstack, hargs, hbase, hcalls⟩ := calls_cycle hi hat hrunning
  rw [h, goTo_eq (hat.with_console console).frames, hsize] at hcalls
  rw [hi] at hfits
  refine ⟨below, callee, args, hstack, hbase, by rw [hargs]; exact hfits, by rw [hat.stands.ip, hargs]; exact hbyte, ?_⟩
  cases hcalls with
  | @native r n hr hn harity => exact .inr ⟨r, n, hr, hn, harity.symm, rfl, rfl⟩
  | @function r g hr hg harity hdepth =>
    refine .inl ⟨r, g, hr, hg, harity.symm, hstack, rfl, fun c hc => ?_⟩
    have hbegin : Beneath ⟨g, 0, below.size⟩ ({ f with ip := f.ip + 2 } :: callers) a
        { a with console, frames := ⟨g, 0, below.size⟩ :: { f with ip := f.ip + 2 } :: callers } :=
      ⟨⟨[], 0, rfl⟩, fun _ _ => rfl⟩
    have hbeneath := hc.beneath hb hbegin
    have hrest : a.stack = below ++ (#[callee] ++ args) := by
      rw [← Array.append_assoc, Array.append_singleton]
      exact hstack
    obtain ⟨hstay, hends⟩ := hbeneath.ends (hc.running hb) hrest rfl
    exact ⟨hbeneath.frames, hstay, fun d hd hlt => hends d hd (Nat.le_of_lt_succ hlt)⟩

/-- A call of a function that gives its argument back, from the call instruction to the step behind the return. -/
theorem call_isolated_function :
    ∃ a b c d f, (Machine.new {} {}).Reaches "fwun f(n) [: out n >> :] ouo f(\"a\") >>" a ∧ a.frames = [f] ∧
      f.function.bytecode.opAt? f.ip = some .call ∧ cycle.run a = .ok () b ∧ During b.frames.length b c ∧
      cycle.run c = .ok () d ∧ ∃ below v, c.stack.take below.size = below ∧ c.stack.back? = some v ∧
        d.stack = below.push v ∧ d.frames = [{ f with ip := f.ip + 2 }] := by
  have hsteps : (((Machine.new {} {}).reached "fwun f(n) [: out n >> :] ouo f(\"a\") >>" 4).bind fun a =>
      (after 1 a).bind fun b => (after 1 b).bind fun c => (after 1 c).map fun d =>
        (a.frames.map fun f => f.function.bytecode.opAt? f.ip, b.frames.length, c.frames.length, d.frames.length)) =
      some ([some .call], 2, 2, 1) := by decide +kernel
  obtain ⟨a, ha, hsteps⟩ := Option.bind_eq_some_iff.1 hsteps
  obtain ⟨b, hb, hsteps⟩ := Option.bind_eq_some_iff.1 hsteps
  obtain ⟨c, hc, hsteps⟩ := Option.bind_eq_some_iff.1 hsteps
  obtain ⟨d, hd, hview⟩ := Option.map_eq_some_iff.1 hsteps
  simp only [Prod.mk.injEq] at hview
  obtain ⟨hcall, hdepth, hsame, hless⟩ := hview
  obtain ⟨f, hf, hop⟩ := List.map_eq_singleton_iff.1 hcall
  have hreaches := reaches_of_reached ha
  have hlast := run_cycle_of_after hd
  obtain ⟨below, callee, args, -, -, -, -, ⟨r, g, -, -, -, -, -, hduring⟩ | ⟨r, n, -, -, -, -, hframes⟩⟩ :=
    call_isolated (.new {} {}) hreaches hf hop (run_cycle_of_after hb)
  · have hinside : During b.frames.length b c :=
      (During.refl b).tail (run_cycle_of_after hc) (Nat.le_of_eq (hdepth.trans hsame.symm))
    obtain ⟨-, hstay, hends⟩ := hduring c hinside
    obtain ⟨v, hv, hstack, hcallers⟩ := hends d hlast (by omega)
    exact ⟨a, b, c, d, f, hreaches, hf, hop, run_cycle_of_after hb, hinside, hlast, below, v, hstay, hv, hstack, hcallers⟩
  · rw [hframes] at hdepth
    cases hdepth

end Machine
end StackScript
