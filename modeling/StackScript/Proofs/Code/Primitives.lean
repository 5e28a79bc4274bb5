import StackScript.Proofs.Code.Describe

/-! What reading a token, writing instructions and asking for constants does, at a place where there has
been no mistake. -/
namespace StackScript.Compiler

/-- Reading a token changes nothing else, if no faulty piece is ahead. -/
theorem advance_eq {s : State} (h : ∀ l ∈ s.upcoming, ∃ t, l = .token t) :
    ∃ current upcoming, s.advance = { s with previous := s.current, current, upcoming } ∧
      ∀ l ∈ upcoming, ∃ t : Token, l = .token t := by
  unfold State.advance
  cases hu : s.upcoming with
  | nil => exact ⟨.sourceEnd s.lastLine, [], rfl, by simp⟩
  | cons l ls =>
    rw [hu] at h
    obtain ⟨t, rfl⟩ := h l List.mem_cons_self
    exact ⟨t, ls, rfl, fun l hl => h l (List.mem_cons_of_mem _ hl)⟩

section Primitives
variable {c : Context} {s : State} (h : Describes c s)
include h

theorem effect_advance : Effect True advance s fun _ t => Emits c [] s t := by
  obtain ⟨current, upcoming, he, hu⟩ := advance_eq h.faultless
  have hd : Describes c s.advance := by
    rw [he]
    exact ⟨⟨h.ready.1, h.ready.2⟩, hu, h.defect, h.locals, h.depth, h.isScript, h.live, h.pooled,
      h.functions⟩
  refine .of_run (run_advance s) hd.not_failed ⟨hd, .of_draft ?_ ?_⟩
  all_goals rw [he]
  exact .refl _

/-! ### Instructions -/

theorem describes_emitByte (byte : UInt8) : Describes c (s.emitByte byte) := h.with_code _ _

omit h in
theorem code_emitByte (s : State) (byte : UInt8) :
    (s.emitByte byte).draft.bytecode.code.toList = s.draft.bytecode.code.toList ++ [byte] := by
  simp [State.emitByte]

theorem effect_emit {op : Opcode} (hw : op.width = 0) :
    Effect True (emit op) s fun _ t => Emits c [⟨op, 0⟩] s t := by
  have hd := describes_emitByte h op.toByte
  refine .of_run rfl hd.not_failed ⟨hd, ?_, ?_, ⟨id, .refl _⟩, rfl, rfl⟩
  · rw [code_emitByte]
    simp [Instr.bytes, hw]
  · simp [Instr.Fits, hw]

theorem effect_emitWith {op : Opcode} (hw : op.width = 1) (operand : UInt8) :
    Effect True (emitWith op operand) s fun _ t => Emits c [⟨op, operand.toNat⟩] s t := by
  have hd := describes_emitByte (describes_emitByte h op.toByte) operand
  refine .of_run rfl hd.not_failed ⟨hd, ?_, ?_, ⟨id, .refl _⟩, rfl, rfl⟩
  · rw [code_emitByte, code_emitByte]
    simp [Instr.bytes, hw]
  · simpa [Instr.Fits, hw] using operand.toNat_lt

theorem effect_emitReturn :
    Effect True emitReturn s fun _ t => Emits c returnCode s t ∧ t.pool = s.pool := by
  have hd := describes_emitByte (describes_emitByte h Opcode.null.toByte) Opcode.out.toByte
  refine .of_run rfl hd.not_failed ⟨⟨hd, ?_, ?_, ⟨id, .refl _⟩, rfl, rfl⟩, rfl⟩
  · rw [code_emitByte, code_emitByte]
    simp [returnCode, Instr.bytes, Opcode.width]
  · simp [returnCode, Instr.Fits, Opcode.width]

/-- A jump is written with the greatest distance, and its place is given back. -/
theorem effect_openJump {op : Opcode} (hw : op.width = 2) :
    Effect True (openJump op) s fun offset t =>
      offset = s.draft.bytecode.size + 1 ∧ Emits c [⟨op, maxDistance⟩] s t := by
  have hd := describes_emitByte (describes_emitByte (describes_emitByte h op.toByte) 0xff) 0xff
  refine .of_run rfl hd.not_failed ⟨?_, hd, ?_, ?_, ⟨id, .refl _⟩, rfl, rfl⟩
  · simp [State.emitByte]
  · rw [code_emitByte, code_emitByte, code_emitByte]
    simp [Instr.bytes, hw]
    decide
  · simp [Instr.Fits, hw, maxDistance]

omit h in
theorem run_ensure {b : Bool} (hb : b = true) (d : Defect) (s : State) : (ensure b d).run s = ((), s) := by
  subst hb
  rfl

/-- A check that is a mistake if it fails. -/
theorem effect_checked {P : Prop} [Decidable P] {a : Action Unit} {m : Mistake}
    {Q : Unit → State → Prop} (ha : P → Effect True a s Q) :
    Effect P (if P then a else mistake m) s Q := by
  by_cases hp : P
  · rw [if_pos hp]
    exact (ha hp).congr (iff_of_true trivial hp)
  · rw [if_neg hp]
    have hf : Failed ((mistake m).run s).2 := failed_mistake (.inl h.ready) m
    exact ⟨iff_of_false (· hf) hp, fun k => absurd k hp⟩

omit h in
theorem code_patch {b : Bytecode} {before after : List UInt8} {x y z : UInt8} (value : Nat)
    (hb : b.code.toList = before ++ x :: y :: z :: after) :
    (b.patch (before.length + 1) value).code.toList =
      before ++ x :: (value / 256).toUInt8 :: value.toUInt8 :: after := by
  simp [Bytecode.patch, hb, Nat.add_assoc, List.set_append_right]

omit h in
/-- Closing a jump sets its distance, so that it goes over the code written since. -/
theorem effect_closeJump (pre : List Instr) (offset : Nat) {op : Opcode} (hw : op.width = 2) {t : State}
    {n : Nat} {is : List Instr} (ht : Emits c (pre ++ ⟨op, n⟩ :: is) s t)
    (hoffset : offset = s.draft.bytecode.size + codeLength pre + 1) :
    Effect (codeLength is ≤ maxDistance) (closeJump offset) t fun _ u =>
      Emits c (pre ++ ⟨op, codeLength is⟩ :: is) s u ∧ u.pool = t.pool := by
  have hsize : t.draft.bytecode.size = offset + 2 + codeLength is := by
    rw [ht.wrote.size, codeLength_append, codeLength_cons, Instr.size, hw, hoffset]
    omega
  have hdist : t.draft.bytecode.size - offset - 2 = codeLength is := by omega
  refine .of_run_eq ?_ <| effect_checked ht.describes (m := .jumpTooLarge) (a := modify fun t =>
    { t with draft := { t.draft with
      bytecode := t.draft.bytecode.patch offset (codeLength is) } }) fun hle => ?_
  · rw [closeJump, run_bind, run_codeSize, run_bind, run_ensure (decide_eq_true (by omega)), run_bind,
      run_codeSize, hdist]
  · have hd := ht.describes.with_code (t.draft.bytecode.patch offset (codeLength is)).code
      t.draft.bytecode.lines
    refine .of_run rfl hd.not_failed ⟨⟨hd, ?_, ?_, ht.wrote.pool, ht.wrote.name, ht.wrote.arity⟩, rfl⟩
    · have hc := ht.wrote.code
      simp only [codeBytes_append, codeBytes_cons, Instr.bytes, hw, List.cons_append, List.nil_append,
        ← List.append_assoc] at hc
      have hlen : (s.draft.bytecode.code.toList ++ codeBytes pre).length + 1 = offset := by
        rw [hoffset, List.length_append, length_codeBytes, Array.length_toList, Bytecode.size]
      have hpatch := code_patch (codeLength is) hc
      rw [hlen] at hpatch
      simpa [Instr.bytes, hw] using hpatch
    · intro i hi
      rcases List.mem_append.1 hi with hi | hi
      · exact ht.wrote.fits i (List.mem_append_left _ hi)
      · rcases List.mem_cons.1 hi with rfl | hi
        · simpa [Instr.Fits, hw, maxDistance, Nat.lt_succ_iff] using hle
        · exact ht.wrote.fits i (by simp [hi])

theorem effect_loopDistance (distance : Nat) :
    Effect (distance ≤ maxDistance) (loopDistance distance) s fun n t =>
      n = distance ∧ n ≤ maxDistance ∧ t = s := by
  unfold loopDistance
  by_cases hle : distance ≤ maxDistance
  · rw [if_pos hle]
    exact (Effect.pure h.not_failed ⟨rfl, hle, rfl⟩).congr (iff_of_true trivial hle)
  · rw [if_neg hle]
    have hf : Failed ((mistake .loopTooLarge).run s).2 := failed_mistake (.inl h.ready) _
    exact ⟨iff_of_false (· hf) hle, fun k => absurd k hle⟩

omit h in
/-- A jump back to the beginning of code is written behind it. -/
theorem effect_emitBackJump {t : State} {is : List Instr} (ht : Emits c is s t) :
    Effect (codeLength is + 3 ≤ maxDistance) (emitBackJump s.draft.bytecode.size) t fun _ u =>
      Emits c [⟨.loop, codeLength is + 3⟩] t u := by
  have hd := describes_emitByte ht.describes Opcode.loop.toByte
  have hsize := ht.wrote.size
  have hsize' : (t.emitByte Opcode.loop.toByte).draft.bytecode.size = t.draft.bytecode.size + 1 := by
    simp [State.emitByte]
  have hdist : (t.emitByte Opcode.loop.toByte).draft.bytecode.size - s.draft.bytecode.size + 2 =
      codeLength is + 3 := by omega
  refine .of_run_eq (t := t.emitByte Opcode.loop.toByte) (b := loopDistance (codeLength is + 3) >>=
    fun n => emitByte (n / 256).toUInt8 >>= fun _ => emitByte n.toUInt8) ?_ ?_
  · have hle : s.draft.bytecode.size ≤ (t.emitByte Opcode.loop.toByte).draft.bytecode.size := by omega
    rw [emitBackJump, run_bind, run_emit, run_bind, run_codeSize, run_bind,
      run_ensure (decide_eq_true hle), run_bind, run_codeSize, hdist]
  · refine (effect_loopDistance hd _).bindTrue ?_
    rintro _ _ ⟨rfl, hle, rfl⟩
    have hd' := describes_emitByte (describes_emitByte hd ((codeLength is + 3) / 256).toUInt8)
      (codeLength is + 3).toUInt8
    refine .of_run rfl hd'.not_failed ⟨hd', ?_, ?_, ⟨id, .refl _⟩, rfl, rfl⟩
    · rw [code_emitByte, code_emitByte, code_emitByte]
      simp [Instr.bytes, Opcode.width]
    · simpa [Instr.Fits, Opcode.width, maxDistance, Nat.lt_succ_iff] using hle

/-! ### Constants -/

omit h in
theorem addConstant?_of_lt {b : Bytecode} {v : Value} (hr : b.constants.size < Bytecode.maxConstants) :
    b.addConstant? v = some (b.constants.size.toUInt8, { b with constants := b.constants.push v }) :=
  if_pos hr

omit h in
theorem addConstant?_of_not_lt {b : Bytecode} {v : Value}
    (hr : ¬b.constants.size < Bytecode.maxConstants) : b.addConstant? v = none := if_neg hr

omit h in
theorem getElem?_push_of_eq_some {α : Type} {xs : Array α} {i : Nat} {x y : α} (hx : xs[i]? = some x) :
    (xs.push y)[i]? = some x := by
  rw [Array.getElem?_push, if_neg, hx]
  rintro rfl
  simp at hx

/-- A constant that is added is a mistake if every byte is taken. -/
theorem effect_addConstant (names : List (Symbol × UInt8)) {v : Value} {n : Needs} {a : Action UInt8}
    (hv : s.store.Sound v) (hcount : (c.needs + n).count = c.needs.count + 1)
    (hsome : ∀ i bytecode, i = s.draft.bytecode.constants.size.toUInt8 →
      s.draft.bytecode.addConstant? v = some (i, bytecode) →
        a.run s = (i, { s with draft := { s.draft with bytecode, names } }))
    (hnone : s.draft.bytecode.addConstant? v = none →
      a.run s = (0, ((mistake .tooManyConstants).run s).2))
    (hknown : s.draft.bytecode.constants.size < Bytecode.maxConstants →
      (∀ {b i}, names.lookup b = some i →
        (s.draft.bytecode.constants.push v)[i.toNat]? = some (.string b)) ∧
      ∀ {x}, x ∈ (c.needs + n).globals ↔ ∃ b i, s.store.text? b = some x ∧ names.lookup b = some i) :
    Effect (c.Room n) a s fun i t =>
      Emits (c.add n) [] s t ∧ t.pool.constants[i.toNat]? = some v := by
  have hp := h.pooled
  have hiff : c.Room n ↔ s.draft.bytecode.constants.size < Bytecode.maxConstants := by
    rw [Context.Room, hcount, hp.size, Nat.succ_le_iff]
  by_cases hr : s.draft.bytecode.constants.size < Bytecode.maxConstants
  · have hi : s.draft.bytecode.constants.size.toUInt8.toNat = s.draft.bytecode.constants.size :=
      UInt8.toNat_ofNat_of_lt' hr
    obtain ⟨hnamed, hknown⟩ := hknown hr
    refine (Effect.of_run (hsome _ _ rfl (if_pos hr)) (fun hf => hf h.ready.errors)
      ⟨⟨⟨⟨h.ready.1, h.ready.2⟩, h.faultless, h.defect, h.locals, h.depth, h.isScript, h.live,
        ⟨?_, hiff.2 hr, ?_, hnamed, hknown⟩, h.functions⟩,
      ⟨by simp, by simp, ⟨getElem?_push_of_eq_some, .refl _⟩, rfl, rfl⟩⟩, ?_⟩).congr
      (iff_of_true trivial (hiff.2 hr))
    · rw [Array.size_push, hp.size, Context.needs_add, hcount]
    · intro w hw
      rcases Array.mem_push.1 hw with hw | rfl
      · exact hp.sound w hw
      · exact hv
    · simp [State.pool, hi]
  · have hf : Failed ((mistake .tooManyConstants).run s).2 := failed_mistake (.inl h.ready) _
    refine ⟨iff_of_false (fun k => k ?_) fun k => hr (hiff.1 k), fun k => absurd (hiff.1 k) hr⟩
    rw [hnone (if_neg hr)]
    exact hf

theorem effect_poolConstant {v : Value} (hv : s.store.Sound v) :
    Effect (c.Room .one) (poolConstant v) s fun i t =>
      Emits (c.add .one) [] s t ∧ t.pool.constants[i.toNat]? = some v := by
  have hp := h.pooled
  refine effect_addConstant h _ hv ?_ (fun i bytecode _ ha => ?_) (fun ha => ?_)
    fun _ => ⟨fun hl => getElem?_push_of_eq_some (hp.named hl), ?_⟩
  · simp only [Needs.count, Needs.own_add, Needs.globals_add, Needs.one, Finset.union_empty]
    omega
  · simp only [poolConstant, run_bind, run_get, ha]
    rfl
  · simp only [poolConstant, run_bind, run_get, ha]
    rfl
  · intro x
    simpa [Needs.one] using hp.known

theorem effect_emitConstant {v : Value} (hv : s.store.Sound v) :
    Effect (c.Room .one) (emitConstant v) s fun _ t =>
      Yields (c.add .one) (fun κ is => ∃ i, κ.constants[i]? = some v ∧ is = [⟨.constant, i⟩]) s t :=
  (effect_poolConstant h hv).bindTrue fun i _ ⟨ht, hi⟩ =>
    (effect_emitWith ht.describes rfl i).mono fun _ _ _ hu =>
      ⟨_, ht.trans hu, _, hu.wrote.pool.constants hi, rfl⟩

theorem effect_intern (x : String) :
    Effect True (intern x) s fun a t =>
      Emits c [] s t ∧ t.store.text? a = some x ∧ t.draft = s.draft := by
  have hs := Store.Extends.of_intern s.store x
  have hd := h.with_store hs rfl
  exact .of_run rfl hd.not_failed ⟨⟨hd, .of_draft rfl hs⟩, Symbols.text?_intern _ _, rfl⟩

omit h in
theorem lookup_cons_of_ne {names : List (Symbol × UInt8)} {a b : Symbol} {i : UInt8} (hb : b ≠ a) :
    ((a, i) :: names).lookup b = names.lookup b := by
  rw [List.lookup_cons, beq_false_of_ne hb]

theorem effect_newNameConstant {a : Symbol} {x : String} (ha : s.store.text? a = some x)
    (hl : s.draft.names.lookup a = none) :
    Effect (c.Room { globals := {x} }) (newNameConstant a) s fun i t =>
      Emits (c.add { globals := {x} }) [] s t ∧ t.pool.constants[i.toNat]? = some (.string a) := by
  have hp := h.pooled
  have hx : x ∉ c.needs.globals := by
    intro hx
    obtain ⟨b, i, hb, hi⟩ := hp.known.1 hx
    rw [Store.symbol_eq ha hb, hi] at hl
    cases hl
  refine effect_addConstant h ((a, s.draft.bytecode.constants.size.toUInt8) :: s.draft.names)
    (.string (by rw [ha]; rfl)) ?_ (fun i bytecode hi hb => ?_) (fun hb => ?_)
    fun hr => ⟨fun {b i} hi => ?_, fun {y} => ?_⟩
  · simp only [Needs.count, Needs.own_add, Needs.globals_add]
    rw [Finset.union_comm, ← Finset.insert_eq, Finset.card_insert_of_notMem hx]
    omega
  · simp only [newNameConstant, run_bind, run_get, hb, ← hi]
    rfl
  · simp only [newNameConstant, run_bind, run_get, hb]
    rfl
  · by_cases hb : b = a
    · rw [hb, List.lookup_cons_self] at hi
      rw [hb, ← Option.some.inj hi, UInt8.toNat_ofNat_of_lt' hr]
      simp
    · rw [lookup_cons_of_ne hb] at hi
      exact getElem?_push_of_eq_some (hp.named hi)
  · simp only [Needs.globals_add, Finset.mem_union, Finset.mem_singleton]
    constructor
    · rintro (hy | rfl)
      · obtain ⟨b, i, hb, hi⟩ := hp.known.1 hy
        refine ⟨b, i, hb, ?_⟩
        rwa [lookup_cons_of_ne]
        rintro rfl
        rw [hl] at hi
        cases hi
      · exact ⟨a, _, ha, List.lookup_cons_self⟩
    · rintro ⟨b, i, hb, hi⟩
      by_cases hba : b = a
      · rw [hba, ha] at hb
        exact .inr (Option.some.inj hb).symm
      · rw [lookup_cons_of_ne hba] at hi
        exact .inl (hp.known.2 ⟨b, i, hb, hi⟩)

/-- A name that has been asked for is nothing more to ask for. -/
theorem Describes.add_of_lookup {a : Symbol} {x : String} {i : UInt8} (ha : s.store.text? a = some x)
    (hl : s.draft.names.lookup a = some i) : c.add { globals := {x} } = c := by
  have hx : c.needs + { globals := {x} } = c.needs :=
    Needs.ext rfl (Finset.union_eq_left.2 (Finset.singleton_subset_iff.2 (h.pooled.known.2 ⟨a, i, ha, hl⟩)))
  rw [Context.add, hx]

/-- The constant of a global name is in the pool, and is added to it if it is not there. -/
theorem effect_nameConstant (x : String) :
    Effect (c.Room { globals := {x} }) (nameConstant x) s fun i t =>
      Emits (c.add { globals := {x} }) [] s t ∧ t.pool.IsName i.toNat x := by
  refine (effect_intern h x).andThen ?_
  rintro a t ⟨ht, ha, -⟩
  have hd := ht.describes
  have hp := hd.pooled
  cases hl : t.draft.names.lookup a with
  | some i =>
    have hc := hd.add_of_lookup ha hl
    rw [hc]
    refine (Effect.of_run (t := t) (x := i) ?_ hd.not_failed ⟨ht, a, hp.named hl, ha⟩).congr
      (iff_of_true trivial ?_)
    · simp only [symbolConstant, run_bind, run_get, hl, run_pure]
    · rw [Context.Room, ← Context.needs_add, hc]
      exact hp.room
  | none =>
    refine .of_run_eq (t := t) ?_ ((effect_newNameConstant hd ha hl).mono ?_)
    · simp only [symbolConstant, run_bind, run_get, hl]
    · rintro i u - ⟨hu, hi⟩
      exact ⟨ht.trans hu, a, hi, hu.wrote.pool.store.text ha⟩

end Primitives

end StackScript.Compiler
