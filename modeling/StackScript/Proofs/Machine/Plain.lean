import StackScript.Proofs.Machine.Running

/-! Instructions that stay in their call and go on with the next one. Each takes values off the stack and puts values on
it as the verifier counts them, or fails with an error of the language. -/
namespace StackScript
namespace Machine

/-- Whether an instruction goes on with the next one, in the same call. -/
def IsPlain (op : Opcode) : Prop :=
  op ≠ .jump ∧ op ≠ .jumpIfFalse ∧ op ≠ .jumpIfTrue ∧ op ≠ .loop ∧ op ≠ .call ∧ op ≠ .out

/-- What a plain instruction comes to. Only an instruction that raises the stack can find it full. -/
inductive Plain (i : Instr) (base : Nat) (m : Machine) : EStateM.Result Halt Machine Unit → Prop
  | works {m' : Machine} (h : Works base i.takes i.gives m m') : Plain i base m (.ok () m')
  | fails {e : RuntimeError} {m' : Machine}
      (h : Fails (i.takes < i.gives ∧ m.config.stackSize ≤ m.stack.size) m e m') : Plain i base m (.error (.failed e) m')

section
variable {m m' : Machine} {base : Nat} {i : Instr} {rest : Array Value} {v w : Value}

/-! ### Operands -/

theorem exists_push {xs : Array Value} (h : base + 1 ≤ xs.size) :
    ∃ (rest : Array Value) (v : Value), xs = rest.push v ∧ base ≤ rest.size := by
  obtain ⟨rest, v, rfl⟩ := Array.eq_push_of_size_ne_zero (show xs.size ≠ 0 by omega)
  refine ⟨rest, v, rfl, ?_⟩
  rw [Array.size_push] at h
  omega

theorem exists_push_push {xs : Array Value} (h : base + 2 ≤ xs.size) :
    ∃ (rest : Array Value) (v w : Value), xs = (rest.push v).push w ∧ base ≤ rest.size := by
  obtain ⟨ys, w, rfl, hy⟩ := exists_push (show base + 1 + 1 ≤ xs.size from h)
  obtain ⟨rest, v, rfl, hb⟩ := exists_push hy
  exact ⟨rest, v, w, rfl, hb⟩

theorem IsSound.top (hm : m.IsSound) (h : m.stack = rest.push v) : m.store.Sound v :=
  hm.stack v (h ▸ Array.mem_push_self)

theorem IsSound.second (hm : m.IsSound) (h : m.stack = (rest.push v).push w) : m.store.Sound v :=
  hm.stack v (h ▸ Array.mem_push.2 (.inl Array.mem_push_self))

theorem exists_bytes {s : Store} (h : s.Sound v) : ∃ bytes, s.bytes? v = some bytes := by
  unfold Store.bytes?
  split
  · exact ⟨_, rfl⟩
  · obtain ⟨text, htext⟩ := Option.isSome_iff_exists.1 h.shows
    rw [htext]
    exact ⟨_, rfl⟩

/-! ### Parts of instructions -/

/-- A failure that has nothing to do with the height of the stack. -/
theorem plain_fail {e : RuntimeError} {takes gives : Nat} (h : Works base takes gives m m')
    (known : ∀ b, e ≠ .unknownOpcode b) (he : e ≠ .stackOverflow) : Plain i base m (.error (.failed e) m') :=
  .fails (h.fails known fun hover => absurd hover he)

theorem plain_push (hi : i.takes = 0 ∧ i.gives = 1) (h : Works base 0 0 m m') (hb : base ≤ m.stack.size)
    (hv : m'.store.Sound v) : Plain i base m ((push v).run m') := by
  have hsize : m'.stack.size = m.stack.size := h.size
  by_cases hfull : m'.config.stackSize ≤ m'.stack.size
  · rw [run_push_full hfull]
    refine .fails (h.fails (fun _ => RuntimeError.noConfusion) fun _ => ⟨by rw [hi.1, hi.2]; exact Nat.one_pos, ?_⟩)
    rwa [h.config, hsize] at hfull
  · rw [run_push (Nat.lt_of_not_le hfull)]
    refine .works ?_
    rw [hi.1, hi.2]
    exact h.trans (works_push h.sound hv (by omega) (Nat.lt_of_not_le hfull))

theorem withConsole_cases {α : Type} (c : Console → Except ConsoleError α × Console) (m : Machine) :
    (∃ a console, (withConsole c).run m = .ok a { m with console }) ∨
      ∃ e console, (withConsole c).run m = .error (.failed (.console e)) { m with console } := by
  rw [run_withConsole]
  cases (c m.console).1 with
  | ok a => exact .inl ⟨a, _, rfl⟩
  | error e => exact .inr ⟨e, _, rfl⟩

theorem readLine_cases (m : Machine) : (∃ line console, readLine.run m = .ok line { m with console }) ∨
    ∃ e console, readLine.run m = .error (.failed (.console e)) { m with console } := by
  obtain ⟨u, console, h⟩ | ⟨e, console, h⟩ := withConsole_cases Console.flush m
  · rw [readLine, run_bind_ok h]
    exact withConsole_cases Console.readLine { m with console }
  · exact .inr ⟨e, console, by rw [readLine, run_bind_error h]⟩

/-- An instruction that reads a line goes on to push what it makes of it. -/
theorem plain_readLine (hm : m.IsSound) {k : List UInt8 → Exec Unit}
    (hk : ∀ line console, Plain i base m ((k line).run { m with console })) :
    Plain i base m ((readLine >>= k).run m) := by
  obtain ⟨line, console, h⟩ | ⟨e, console, h⟩ := readLine_cases m
  · rw [run_bind_ok h]
    exact hk line console
  · rw [run_bind_error h]
    exact plain_fail (works_console hm base console) (fun _ => RuntimeError.noConfusion) RuntimeError.noConfusion

theorem plain_combine (hi : i.takes = 2 ∧ i.gives = 1) (hm : m.IsSound) (h : m.stack = (rest.push v).push w)
    (hb : base ≤ rest.size) {g : Double → Double → Value} (hg : ∀ x y, m.store.Sound (g x y)) :
    Plain i base m ((combineNumbers g).run m) := by
  by_cases hn : ∃ x y, v = .number x ∧ w = .number y
  · obtain ⟨x, y, rfl, rfl⟩ := hn
    rw [run_combineNumbers h]
    refine .works ?_
    rw [hi.1, hi.2]
    exact works_combine hm h hb (hg x y)
  · rw [run_combineNumbers_fail h hn]
    exact plain_fail (.refl hm base) (fun _ => RuntimeError.noConfusion) RuntimeError.noConfusion

theorem plain_add (hi : i.takes = 2 ∧ i.gives = 1) (hm : m.IsSound) (h : m.stack = (rest.push v).push w)
    (hb : base ≤ rest.size) : Plain i base m (addTop.run m) := by
  by_cases hn : ∃ x y, v = .number x ∧ w = .number y
  · obtain ⟨x, y, rfl, rfl⟩ := hn
    rw [run_addTop_numbers h]
    refine .works ?_
    rw [hi.1, hi.2]
    exact works_combine hm h hb (.number _)
  · by_cases ht : v.isTextual ∧ w.isTextual
    · obtain ⟨left, hl⟩ := exists_bytes (hm.second h)
      obtain ⟨right, hr⟩ := exists_bytes (hm.top h)
      rw [run_addTop_texts h ht hl hr]
      refine .works ?_
      rw [hi.1, hi.2]
      have hintern := works_intern hm base (Utf8.decode (left ++ right))
      exact hintern.trans (works_combine hintern.sound h hb (sound_intern _ _))
    · rw [run_addTop_fail h hn ht]
      exact plain_fail (.refl hm base) (fun _ => RuntimeError.noConfusion) RuntimeError.noConfusion

theorem plain_compare (hi : i.takes = 2 ∧ i.gives = 1) (hm : m.IsSound) (h : m.stack = (rest.push v).push w)
    (hb : base ≤ rest.size) (equal : Bool) : Plain i base m ((compareTop equal).run m) := by
  rw [run_compareTop h]
  refine .works ?_
  rw [hi.1, hi.2]
  exact works_combine hm h hb (.bool _)

theorem plain_undefined (hm : m.IsSound) {name : Symbol} {text : String} (h : m.store.text? name = some text) :
    Plain i base m ((undefined name).run m) := by
  rw [run_undefined h]
  exact plain_fail (.refl hm base) (fun _ => RuntimeError.noConfusion) RuntimeError.noConfusion

end

/-! ### Instructions -/

section
variable {m : Machine} {f : Frame} {callers : List Frame} {i : Instr} {height : Nat}

/-- A plain instruction whose operand names something, and which finds its operands above slot zero of its call. -/
theorem plain_perform (hi : IsPlain i.op) (hm : m.IsSound) (hf : m.frames = f :: callers)
    (hc : ∀ v ∈ f.function.bytecode.constants, m.store.Sound v) (hfits : i.operand < 256 ^ i.op.width)
    (hr : i.Refers ⟨f.function.bytecode.constants, m.store⟩ height) (htop : m.stack.size = f.base + height)
    (htakes : 1 + i.takes ≤ height) : Plain i f.base m (i.perform.run m) := by
  have hbase : f.base ≤ m.stack.size := by omega
  obtain ⟨op, n⟩ := i
  have hone : (⟨op, n⟩ : Instr).takes = 1 → ∃ (rest : Array Value) (v : Value), m.stack = rest.push v ∧
      f.base ≤ rest.size := fun ht => exists_push (by omega)
  have htwo : (⟨op, n⟩ : Instr).takes = 2 → ∃ (rest : Array Value) (v w : Value), m.stack = (rest.push v).push w ∧
      f.base ≤ rest.size := fun ht => exists_push_push (by omega)
  have hslot : op.width = 1 → n.toUInt8.toNat = n := fun hw => by
    have hlt : n < 256 ^ op.width := hfits
    rw [hw] at hlt
    exact UInt8.toNat_ofNat_of_lt' hlt
  cases op
  case constant =>
    obtain ⟨v, hv⟩ : ∃ v, f.function.bytecode.constants[n]? = some v := ⟨_, Array.getElem?_eq_getElem hr⟩
    have hread : (constantAt n).run m = .ok v m := by rw [run_constantAt hf, hv, run_orStuck_some]
    change Plain _ _ _ ((constantAt n >>= push).run m)
    rw [run_bind_ok hread]
    exact plain_push ⟨rfl, rfl⟩ (.refl hm _) hbase (hc v (Array.mem_of_getElem? hv))
  case null => exact plain_push ⟨rfl, rfl⟩ (.refl hm _) hbase .null
  case true => exact plain_push ⟨rfl, rfl⟩ (.refl hm _) hbase (.bool _)
  case false => exact plain_push ⟨rfl, rfl⟩ (.refl hm _) hbase (.bool _)
  case pop =>
    obtain ⟨rest, v, h, hb⟩ := hone rfl
    change Plain _ _ _ ((pop >>= fun _ => pure ()).run m)
    rw [run_bind_ok (run_pop h)]
    exact .works (works_pop hm h hb)
  case getLocal =>
    have hlt : f.base + n < m.stack.size := by
      rw [htop]
      exact Nat.add_lt_add_left hr _
    have hv : m.stack[f.base + n.toUInt8.toNat]? = some m.stack[f.base + n] := by
      rw [hslot rfl]
      exact Array.getElem?_eq_getElem hlt
    change Plain _ _ _ ((getSlot n.toUInt8 >>= push).run m)
    rw [run_bind_ok (run_getSlot hf hv)]
    exact plain_push ⟨rfl, rfl⟩ (.refl hm _) hbase (hm.stack _ (Array.getElem_mem hlt))
  case setLocal =>
    obtain ⟨rest, v, h, hb⟩ := hone rfl
    have hlt : f.base + n.toUInt8.toNat < m.stack.size := by
      rw [hslot rfl, htop]
      exact Nat.add_lt_add_left hr _
    change Plain _ _ _ ((peek 0 >>= setSlot n.toUInt8).run m)
    rw [run_bind_ok (run_peek_zero h), run_setSlot hf hlt]
    exact .works (.same (works_setSlot hm (hm.top h) (Nat.le_add_right _ _)))
  case getGlobal =>
    obtain ⟨x, a, ha, hx⟩ := hr
    change Plain _ _ _ ((nameAt n >>= _).run m)
    rw [run_bind_ok (run_nameAt hf ha), run_bind_ok (EStateM.run_get m)]
    split
    · exact plain_push ⟨rfl, rfl⟩ (.refl hm _) hbase (hm.globals ‹_›)
    · exact plain_undefined hm hx
  case setGlobal =>
    obtain ⟨x, a, ha, hx⟩ := hr
    obtain ⟨rest, v, h, hb⟩ := hone rfl
    change Plain _ _ _ ((nameAt n >>= _).run m)
    rw [run_bind_ok (run_nameAt hf ha), run_bind_ok (run_peek_zero h), run_bind_ok (EStateM.run_get m)]
    split
    · exact .works (.same (works_insert hm f.base (Option.isSome_of_eq_some hx) (hm.top h)))
    · exact plain_undefined hm hx
  case defineGlobal =>
    obtain ⟨x, a, ha, hx⟩ := hr
    obtain ⟨rest, v, h, hb⟩ := hone rfl
    change Plain _ _ _ ((nameAt n >>= _).run m)
    rw [run_bind_ok (run_nameAt hf ha), run_bind_ok (run_pop h)]
    have hpop := works_pop hm h hb
    exact .works (hpop.trans (works_insert hpop.sound f.base (Option.isSome_of_eq_some hx) (hm.top h)))
  case equal =>
    obtain ⟨rest, v, w, h, hb⟩ := htwo rfl
    exact plain_compare ⟨rfl, rfl⟩ hm h hb true
  case notEqual =>
    obtain ⟨rest, v, w, h, hb⟩ := htwo rfl
    exact plain_compare ⟨rfl, rfl⟩ hm h hb false
  case add =>
    obtain ⟨rest, v, w, h, hb⟩ := htwo rfl
    exact plain_add ⟨rfl, rfl⟩ hm h hb
  case not =>
    obtain ⟨rest, v, h, hb⟩ := hone rfl
    change Plain _ _ _ ((peek 0 >>= _).run m)
    rw [run_bind_ok (run_peek_zero h), run_setTop h]
    exact .works (works_replace hm h hb (.bool _))
  case negate =>
    obtain ⟨rest, v, h, hb⟩ := hone rfl
    change Plain _ _ _ ((peek 0 >>= _).run m)
    rw [run_bind_ok (run_peek_zero h)]
    split
    · rw [run_setTop h]
      exact .works (works_replace hm h hb (.number _))
    · exact plain_fail (.refl hm f.base) (fun _ => RuntimeError.noConfusion) RuntimeError.noConfusion
  case print =>
    obtain ⟨rest, v, h, hb⟩ := hone rfl
    obtain ⟨bytes, hbytes⟩ := exists_bytes (hm.top h)
    have hpop := works_pop hm h hb
    change Plain _ _ _ (printTop.run m)
    rw [run_printTop h hbytes]
    obtain ⟨u, console, hw⟩ | ⟨e, console, hw⟩ := withConsole_cases (·.write bytes) { m with stack := rest }
    · rw [hw]
      exact .works (hpop.trans (works_console hpop.sound _ console))
    · rw [hw]
      exact plain_fail (hpop.trans (works_console hpop.sound _ console)) (fun _ => RuntimeError.noConfusion)
        RuntimeError.noConfusion
  case readString =>
    refine plain_readLine hm fun line console => ?_
    have hconsole := works_console hm f.base console
    rw [run_bind_ok (run_intern _ _)]
    exact plain_push ⟨rfl, rfl⟩ (hconsole.trans (works_intern hconsole.sound _ _)) hbase (sound_intern _ _)
  case readNumber =>
    exact plain_readLine hm fun line console =>
      plain_push ⟨rfl, rfl⟩ (works_console hm f.base console) hbase (.number _)
  case readChar =>
    exact plain_readLine hm fun line console =>
      plain_push ⟨rfl, rfl⟩ (works_console hm f.base console) hbase (.char _)
  case jump => exact absurd rfl hi.1
  case jumpIfFalse => exact absurd rfl hi.2.1
  case jumpIfTrue => exact absurd rfl hi.2.2.1
  case loop => exact absurd rfl hi.2.2.2.1
  case call => exact absurd rfl hi.2.2.2.2.1
  case out => exact absurd rfl hi.2.2.2.2.2
  all_goals
    obtain ⟨rest, v, w, h, hb⟩ := htwo rfl
    refine plain_combine ⟨rfl, rfl⟩ hm h hb fun x y => ?_
    first
      | exact .bool _
      | exact .number _

end

end Machine
end StackScript
