import StackScript.Proofs.Code.Lines
import StackScript.Proofs.Code.Listing
import StackScript.Proofs.Code.Primitives

/-! What holds in every state that a compilation comes to, mistakes or not: its code is made of whole
instructions, each of which comes from one line, the constants that they name are there and can be shown, and literals
have both their marks. -/
namespace StackScript

/-- A literal between marks has both of them. -/
def Token.Delimited (t : Token) : Prop :=
  t.kind = .string ∨ t.kind = .char → 2 ≤ t.lexeme.toList.length

theorem codeLength_eq_of_op {is js : List Instr} (h : js.map Instr.op = is.map Instr.op) :
    codeLength js = codeLength is := by
  induction is generalizing js with
  | nil => rw [List.map_eq_nil_iff.1 h]
  | cons i is ih =>
    obtain ⟨j, js, rfl, hj, hjs⟩ := List.map_eq_cons_iff.1 h
    rw [codeLength_cons, codeLength_cons, ih hjs, Instr.size, Instr.size, hj]

namespace Bytecode
variable {b b' b'' : Bytecode}

/-- The instructions of the first code are those at the beginning of the second, but for their operands. -/
def Prolongs (b b' : Bytecode) : Prop :=
  ∀ is, b.Consists is → ∃ js ks, b'.Consists (js ++ ks) ∧ js.map Instr.op = is.map Instr.op

theorem Prolongs.of_code_eq (h : b'.code = b.code) : b.Prolongs b' :=
  fun is his => ⟨is, [], ⟨by simpa [h] using his.code, by simpa using his.fits⟩, rfl⟩

theorem Prolongs.of_append {is : List Instr} (hi : ∀ i ∈ is, i.Fits)
    (h : b'.code.toList = b.code.toList ++ codeBytes is) : b.Prolongs b' := by
  intro js hjs
  refine ⟨js, is, ⟨by rw [h, hjs.code, codeBytes_append], fun i hmem => ?_⟩, rfl⟩
  rcases List.mem_append.1 hmem with hmem | hmem
  · exact hjs.fits i hmem
  · exact hi i hmem

theorem Prolongs.trans (h : b.Prolongs b') (k : b'.Prolongs b'') : b.Prolongs b'' := by
  intro is his
  obtain ⟨js, ks, hjs, hop⟩ := h is his
  obtain ⟨ls, ms, hls, hop'⟩ := k _ hjs
  rw [List.map_append] at hop'
  obtain ⟨ls, ls', rfl, hls1, -⟩ := List.map_eq_append_iff.1 hop'
  exact ⟨ls, ls' ++ ms, by rwa [List.append_assoc] at hls, hls1.trans hop⟩

end Bytecode

namespace Compiler
variable {s t u : State}

/-- Every literal, read or not, has its marks. -/
structure Delimited (s : State) : Prop where
  previous : s.previous.Delimited
  current : s.current.Delimited
  upcoming : ∀ t, .token t ∈ s.upcoming → t.Delimited

/-- The function being compiled could be listed, however far its code has been written. -/
structure Coherent (d : Draft) (s : Store) : Prop where
  code : ∃ is, d.bytecode.Consists is ∧ AllKnown d.bytecode.constants is
  lined : d.bytecode.IsLined
  shown : ∀ v ∈ d.bytecode.constants, s.Shows v
  names : ∀ p ∈ d.names, p.2.toNat < d.bytecode.constants.size
  name : ∀ a, d.name = some a → (s.text? a).isSome

theorem Coherent.mono {d : Draft} {s t : Store} (hs : s.Extends t) (h : Coherent d s) : Coherent d t :=
  ⟨h.code, h.lined, fun v hv => (h.shown v hv).mono hs, h.names, fun a ha => hs.isSome_text (h.name a ha)⟩

/-- Nothing that has been taken for granted has failed. -/
structure Intact (s : State) : Prop where
  defect : s.defect = none
  tokens : Delimited s
  draft : Coherent s.draft s.store

/-- Between the states the same function has been compiled on, in the same scope. -/
structure Continues (s t : State) : Prop where
  name : t.draft.name = s.draft.name
  depth : t.draft.depth = s.draft.depth
  constants : s.draft.bytecode.constants.size ≤ t.draft.bytecode.constants.size
  size : s.draft.bytecode.size ≤ t.draft.bytecode.size
  code : s.draft.bytecode.Prolongs t.draft.bytecode
  store : s.store.Extends t.store
  lined : s.store.IsLined → t.store.IsLined

theorem Continues.refl (s : State) : Continues s s :=
  ⟨rfl, rfl, Nat.le_refl _, Nat.le_refl _, .of_code_eq rfl, .refl _, id⟩

theorem Continues.trans (h : Continues s t) (k : Continues t u) : Continues s u :=
  ⟨k.name.trans h.name, k.depth.trans h.depth, Nat.le_trans h.constants k.constants,
    Nat.le_trans h.size k.size, h.code.trans k.code, h.store.trans k.store, k.lined ∘ h.lined⟩

/-- An intact state is followed by one in which the same function has been compiled on. -/
def Steady (s t : State) : Prop := Intact s → Intact t ∧ Continues s t

instance : Std.Refl Steady := ⟨fun s h => ⟨h, .refl s⟩⟩

instance : IsTrans State Steady :=
  ⟨fun _ _ _ h k hs => ⟨(k (h hs).1).1, (h hs).2.trans (k (h hs).1).2⟩⟩

/-! ### Conditions on the states between -/

/-- A condition that stays as a function is compiled on. -/
def Lasts (p : State → Prop) : Prop := ∀ {s t}, Continues s t → p s → p t

/-- The action is steady wherever a condition holds. -/
def KeepsFrom (p : State → Prop) (a : Action α) : Prop := ∀ s, p s → Steady s (a.run s).2

/-- The action is steady wherever a condition holds, and something is known of its result. -/
def Gives (p : State → Prop) (a : Action α) (q : α → State → Prop) : Prop :=
  ∀ s, p s → Steady s (a.run s).2 ∧ (Intact s → q (a.run s).1 (a.run s).2)

namespace KeepsFrom
variable {α β : Type} {p : State → Prop} {q : α → State → Prop} {a : Action α} {f : α → Action β}

theorem of_keeps (h : Keeps Steady a) : KeepsFrom p a := fun s _ => h s

theorem bind (hp : Lasts p) (ha : KeepsFrom p a) (hf : ∀ x, KeepsFrom p (f x)) : KeepsFrom p (a >>= f) := by
  intro s hs hi
  obtain ⟨ht, hst⟩ := ha s hs hi
  obtain ⟨hu, htu⟩ := hf _ _ (hp hst hs) ht
  exact ⟨hu, hst.trans htu⟩

/-- What comes of the first action is known to the second. -/
theorem give (hp : Lasts p) (ha : Gives p a q) (hf : ∀ x, KeepsFrom (fun s => p s ∧ q x s) (f x)) :
    KeepsFrom p (a >>= f) := by
  intro s hs hi
  obtain ⟨hsteady, hq⟩ := ha s hs
  obtain ⟨ht, hst⟩ := hsteady hi
  obtain ⟨hu, htu⟩ := hf _ _ ⟨hp hst hs, hq hi⟩ ht
  exact ⟨hu, hst.trans htu⟩

theorem ite {b : Action α} (c : Prop) [Decidable c] (ha : KeepsFrom p a) (hb : KeepsFrom p b) :
    KeepsFrom p (if c then a else b) := by
  split
  · exact ha
  · exact hb

theorem mono {p' : State → Prop} (h : ∀ {s}, p' s → p s) (ha : KeepsFrom p a) : KeepsFrom p' a :=
  fun s hs => ha s (h hs)

end KeepsFrom

/-- What comes of an action is known to the one after it. -/
theorem Keeps.give {α β : Type} {q : α → State → Prop} {a : Action α} {f : α → Action β}
    (ha : ∀ {p}, Gives p a q) (hf : ∀ x, KeepsFrom (q x) (f x)) : Keeps Steady (a >>= f) := fun s =>
  KeepsFrom.give (p := fun _ => True) (fun _ h => h) ha (fun x => (hf x).mono And.right) s trivial

theorem Lasts.and {p q : State → Prop} (hp : Lasts p) (hq : Lasts q) : Lasts fun s => p s ∧ q s :=
  fun h ⟨hps, hqs⟩ => ⟨hp h hps, hq h hqs⟩

/-! ### States that differ outside the code -/

theorem steady_of_draft_eq (hdraft : t.draft = s.draft) (hstore : s.store.Extends t.store)
    (hlined : Intact s → s.store.IsLined → t.store.IsLined) (hdefect : t.defect = s.defect)
    (htokens : Delimited s → Delimited t) : Steady s t := by
  intro h
  refine ⟨⟨hdefect.trans h.defect, htokens h.tokens, ?_⟩, ?_⟩
  · rw [hdraft]
    exact h.draft.mono hstore
  · refine ⟨?_, ?_, ?_, ?_, .of_code_eq ?_, hstore, hlined h⟩ <;> rw [hdraft]

theorem steady_report (s : State) (line : Nat) (place : Place) (m : Mistake) :
    Steady s (s.report line place m) := by
  unfold State.report
  split
  · exact Std.Refl.refl s
  · exact steady_of_draft_eq rfl (.refl _) (fun _ => id) rfl fun h => ⟨h.1, h.2, h.3⟩

/-- Getting a token changes nothing but the tokens and the mistakes. -/
theorem fetch_eq (ls : List Lexeme) (s : State) :
    ∃ current upcoming recovering errors,
      State.fetch ls s = { s with current, upcoming, recovering, errors } ∧
        ((∀ t, .token t ∈ ls → t.Delimited) →
          current.Delimited ∧ ∀ t, .token t ∈ upcoming → t.Delimited) := by
  induction ls generalizing s with
  | nil => exact ⟨_, _, _, _, rfl, fun _ => ⟨by simp [Token.Delimited, Token.sourceEnd], by simp⟩⟩
  | cons l ls ih =>
    cases l with
    | token t => exact ⟨_, _, _, _, rfl, fun h => ⟨h t (by simp), fun u hu => h u (by simp [hu])⟩⟩
    | fault e line =>
      obtain ⟨c, u, r, es, heq, hd⟩ := ih (s.report line .unknown (.scan e))
      refine ⟨c, u, r, es, ?_, fun h => hd fun t ht => h t (by simp [ht])⟩
      rw [State.fetch, heq]
      unfold State.report
      split <;> rfl

theorem steady_advance (s : State) : Steady s s.advance := by
  obtain ⟨c, u, r, es, heq, hd⟩ := fetch_eq s.upcoming { s with previous := s.current, upcoming := [] }
  rw [State.advance, heq]
  refine steady_of_draft_eq rfl (.refl _) (fun _ => id) rfl fun h => ?_
  obtain ⟨hc, hu⟩ := hd h.upcoming
  exact ⟨h.current, hc, hu⟩

theorem steady_resume (s : State) : Steady s { s with recovering := false } :=
  steady_of_draft_eq rfl (.refl _) (fun _ => id) rfl fun h => ⟨h.1, h.2, h.3⟩

theorem steady_with_store (s : State) {store : Store} (h : s.store.Extends store)
    (hlined : Intact s → s.store.IsLined → store.IsLined) : Steady s { s with store } :=
  steady_of_draft_eq rfl h hlined rfl fun h => ⟨h.1, h.2, h.3⟩

theorem steady_currentKind : Keeps Steady currentKind := Keeps.get.bind fun _ => .pure _

theorem steady_previousToken : Keeps Steady previousToken := Keeps.get.bind fun _ => .pure _

theorem steady_codeSize : Keeps Steady codeSize := Keeps.get.bind fun _ => .pure _

theorem steady_mistakeAt (t : Token) (m : Mistake) : Keeps Steady (mistakeAt t m) :=
  .modify fun s => steady_report s _ _ _

theorem steady_mistake (m : Mistake) : Keeps Steady (mistake m) :=
  Keeps.get.bind fun _ => steady_mistakeAt _ m

instance : Closed fun _ => Keeps Steady where
  pure := .pure
  bind := .bind
  currentKind := steady_currentKind
  advance := .modify steady_advance
  mistake := steady_mistake
  mistakeAhead m := Keeps.get.bind fun _ => steady_mistakeAt _ m

theorem steady_ensure {b : Bool} (h : b = true) (d : Defect) : Keeps Steady (ensure b d) := by
  subst h
  exact .pure _

theorem steady_intern (text : String) : Keeps Steady (intern text) :=
  .modifyGet fun s => steady_with_store s (.of_intern _ text) fun _ => id

theorem gives_intern {p : State → Prop} (text : String) :
    Gives p (intern text) fun a s => (s.store.text? a).isSome := by
  intro s _
  refine ⟨steady_intern text s, fun _ => ?_⟩
  have h := Symbols.text?_intern s.store.symbols text
  exact Option.isSome_iff_exists.2 ⟨text, h⟩

/-! ### Instructions -/

/-- Instructions that name constants that are there have been added to the code. -/
theorem steady_code {b : Bytecode} (is : List Instr) (line : Nat) (hc : b.constants = s.draft.bytecode.constants)
    (hb : b.code.toList = s.draft.bytecode.code.toList ++ codeBytes is)
    (hl : b.lines = (List.replicate (codeLength is) line).foldl LineTable.push s.draft.bytecode.lines)
    (hf : ∀ i ∈ is, i.Fits) (hk : AllKnown s.draft.bytecode.constants is) :
    Steady s { s with draft := { s.draft with bytecode := b } } := by
  intro h
  obtain ⟨js, hjs, hknown⟩ := h.draft.code
  have hconsists : b.Consists (js ++ is) := by
    refine ⟨by rw [hb, hjs.code, codeBytes_append], fun i hi => ?_⟩
    rcases List.mem_append.1 hi with hi | hi
    · exact hjs.fits i hi
    · exact hf i hi
  have hlined : b.IsLined := by
    obtain ⟨placed, hplaced⟩ := h.draft.lined
    exact ⟨_, hplaced.append (by rwa [hplaced.code.unique hjs]) hl⟩
  refine ⟨⟨h.defect, ⟨h.tokens.1, h.tokens.2, h.tokens.3⟩, ⟨js ++ is, hconsists, ?_⟩, hlined, ?_, ?_, h.draft.name⟩,
    rfl, rfl, ?_, ?_, .of_append hf hb, .refl _, id⟩
  · exact AllKnown.append_iff.2 ⟨hc ▸ hknown, hc ▸ hk⟩
  · exact hc ▸ h.draft.shown
  · exact hc ▸ h.draft.names
  · exact Nat.le_of_eq (by rw [hc])
  · rw [Bytecode.size, Bytecode.size, hjs.size, hconsists.size, codeLength_append]
    exact Nat.le_add_right _ _

theorem steady_emit {op : Opcode} (hw : op.width = 0) : Keeps Steady (emit op) := by
  intro s
  refine steady_code [⟨op, 0⟩] s.previous.line rfl ?_ (by simp [Instr.size, hw, Bytecode.write])
    (by simp [Instr.Fits, hw]) ?_
  · rw [Bytecode.code_write]
    simp [Instr.bytes, hw]
  · exact .singleton (by cases op <;> first | rfl | cases hw) 0

/-- The constant that an operation names is there. -/
def Names (op : Opcode) (i : UInt8) (s : State) : Prop :=
  op.namesConstant = true → i.toNat < s.draft.bytecode.constants.size

theorem lasts_names (op : Opcode) (i : UInt8) : Lasts (Names op i) :=
  fun h hs hop => Nat.lt_of_lt_of_le (hs hop) h.constants

theorem steady_emitWith {op : Opcode} (hw : op.width = 1) (i : UInt8) :
    KeepsFrom (Names op i) (emitWith op i) := by
  intro s hs
  refine steady_code [⟨op, i.toNat⟩] s.previous.line (s := s)
    (b := (s.draft.bytecode.write op.toByte s.previous.line).write i s.previous.line) rfl ?_
    (by simp [Instr.size, hw, Bytecode.write]) ?_ ?_
  · simp [Instr.bytes, hw]
  · simpa [Instr.Fits, hw] using i.toNat_lt
  · simpa [Instr.Known] using fun hop => hs hop

theorem names_of_not {op : Opcode} (h : op.namesConstant = false) (i : UInt8) (s : State) : Names op i s :=
  fun hop => by simp [h] at hop

/-- An instruction that names no constant. -/
theorem steady_emitPlain {op : Opcode} (hw : op.width = 1) (hop : op.namesConstant = false) (i : UInt8) :
    Keeps Steady (emitWith op i) := fun s => steady_emitWith hw i s (names_of_not hop i s)

theorem steady_emitReturn : Keeps Steady emitReturn := (steady_emit rfl).seq (steady_emit rfl)

theorem steady_emitPops (n : Nat) : Keeps Steady (emitPops n) := by
  induction n with
  | zero => exact .pure _
  | succ n ih => exact (steady_emit rfl).seq ih

/-! ### Jumps -/

/-- At an offset there is the distance of a jump. -/
def JumpAt (offset : Nat) (s : State) : Prop :=
  ∃ pre i post, s.draft.bytecode.Consists (pre ++ i :: post) ∧ i.op.width = 2 ∧ offset = codeLength pre + 1

theorem lasts_jumpAt (offset : Nat) : Lasts (JumpAt offset) := by
  rintro s t h ⟨pre, i, post, hc, hw, rfl⟩
  obtain ⟨js, ks, hjs, hop⟩ := h.code _ hc
  rw [List.map_append, List.map_cons] at hop
  obtain ⟨pre', rest, rfl, hpre, hrest⟩ := List.map_eq_append_iff.1 hop
  obtain ⟨i', post', rfl, hi, -⟩ := List.map_eq_cons_iff.1 hrest
  exact ⟨pre', i', post' ++ ks, by simpa using hjs, by rwa [hi], by rw [codeLength_eq_of_op hpre]⟩

theorem namesConstant_of_width {op : Opcode} (hw : op.width = 2) : op.namesConstant = false := by
  cases op <;> first | rfl | cases hw

theorem steady_openJump {op : Opcode} (hw : op.width = 2) : Keeps Steady (openJump op) := by
  intro s
  refine steady_code [⟨op, maxDistance⟩] s.previous.line (s := s)
    (b := ((s.draft.bytecode.write op.toByte s.previous.line).write 0xff s.previous.line).write 0xff
      s.previous.line) rfl ?_ (by simp [Instr.size, hw, Bytecode.write]) ?_ ?_
  · simp [Instr.bytes, hw]
    decide
  · simp [Instr.Fits, hw, maxDistance]
  · exact .singleton (namesConstant_of_width hw) _

theorem gives_openJump {p : State → Prop} {op : Opcode} (hw : op.width = 2) :
    Gives p (openJump op) JumpAt := by
  intro s _
  refine ⟨steady_openJump hw s, fun h => ?_⟩
  obtain ⟨is, his, -⟩ := h.draft.code
  refine ⟨is, ⟨op, maxDistance⟩, [], ⟨?_, ?_⟩, hw, ?_⟩
  · have hrun : ((openJump op).run s).2 = ((s.emitByte op.toByte).emitByte 0xff).emitByte 0xff := rfl
    rw [hrun, code_emitByte, code_emitByte, code_emitByte, his.code]
    simp [Instr.bytes, hw]
    decide
  · intro i hi
    rcases List.mem_append.1 hi with hi | hi
    · exact his.fits i hi
    · obtain rfl := List.mem_singleton.1 hi
      simp [Instr.Fits, hw, maxDistance]
  · have hsize := his.size
    have hrun : ((openJump op).run s).1 = s.draft.bytecode.size + 1 := by
      change (((s.emitByte op.toByte).emitByte 0xff).emitByte 0xff).draft.bytecode.size - 2 = _
      simp [State.emitByte]
    rw [hrun, Bytecode.size, hsize]

theorem JumpAt.le_size {offset : Nat} (h : JumpAt offset s) : offset + 2 ≤ s.draft.bytecode.size := by
  obtain ⟨pre, i, post, hc, hw, rfl⟩ := h
  rw [Bytecode.size, hc.size, codeLength_append, codeLength_cons, Instr.size, hw]
  omega

/-- Setting the distance of a jump leaves the instructions as they are otherwise. -/
theorem steady_patch {offset distance : Nat} (h : JumpAt offset s) (hd : distance ≤ maxDistance) :
    Steady s { s with draft := { s.draft with bytecode := s.draft.bytecode.patch offset distance } } := by
  obtain ⟨pre, i, post, hc, hw, rfl⟩ := h
  have hfits : (Instr.mk i.op distance).Fits := by
    simp only [Instr.Fits, hw]
    exact Nat.lt_succ_of_le hd
  have hcode : (s.draft.bytecode.patch (codeLength pre + 1) distance).Consists
      (pre ++ ⟨i.op, distance⟩ :: post) := by
    refine ⟨?_, fun j hj => ?_⟩
    · have hcode := hc.code
      simp only [codeBytes_append, codeBytes_cons, Instr.bytes, hw, List.cons_append, List.nil_append] at hcode
      have hpatch := code_patch distance hcode
      rw [length_codeBytes] at hpatch
      rw [hpatch]
      simp [Instr.bytes, hw]
    · rcases List.mem_append.1 hj with hj | hj
      · exact hc.fits j (List.mem_append_left _ hj)
      · rcases List.mem_cons.1 hj with rfl | hj
        · exact hfits
        · exact hc.fits j (by simp [hj])
  intro hi
  obtain ⟨is, his, hknown⟩ := hi.draft.code
  obtain rfl := his.unique hc
  have hlined : (s.draft.bytecode.patch (codeLength pre + 1) distance).IsLined := by
    obtain ⟨placed, hplaced⟩ := hi.draft.lined
    obtain ⟨ps, rest, rfl, rfl, hrest⟩ := List.map_eq_append_iff.1 (hplaced.code.unique hc)
    obtain ⟨⟨_, line⟩, qs, rfl, rfl, rfl⟩ := List.map_eq_cons_iff.1 hrest
    exact ⟨_, hplaced.replace (j := ⟨_, distance⟩) rfl hcode rfl⟩
  refine ⟨⟨hi.defect, ⟨hi.tokens.1, hi.tokens.2, hi.tokens.3⟩, ⟨_, hcode, ?_⟩, hlined, hi.draft.shown,
    hi.draft.names, hi.draft.name⟩, rfl, rfl, Nat.le_refl _, ?_, fun js hjs => ?_, .refl _, id⟩
  · simp only [AllKnown.append_iff, AllKnown.cons_iff] at hknown ⊢
    exact ⟨hknown.1, Instr.known_of_not (namesConstant_of_width hw), hknown.2.2⟩
  · rw [Bytecode.size_patch]
  · obtain rfl := hjs.unique hc
    exact ⟨pre ++ ⟨i.op, distance⟩ :: post, [], by simpa using hcode, by simp⟩

theorem steady_closeJump (offset : Nat) : KeepsFrom (JumpAt offset) (closeJump offset) := by
  intro s hs
  rw [closeJump, run_bind, run_codeSize, run_bind, run_ensure (decide_eq_true hs.le_size), run_bind,
    run_codeSize]
  by_cases hd : s.draft.bytecode.size - offset - 2 ≤ maxDistance
  · rw [if_pos hd, run_modify]
    exact steady_patch hs hd
  · rw [if_neg hd]
    exact steady_mistake _ s

/-- The code goes at least as far as an offset. -/
def Covers (offset : Nat) (s : State) : Prop := offset ≤ s.draft.bytecode.size

theorem lasts_covers (offset : Nat) : Lasts (Covers offset) := fun h hs => Nat.le_trans hs h.size

theorem report_emitByte (s : State) (line : Nat) (place : Place) (m : Mistake) (byte : UInt8) :
    (s.report line place m).emitByte byte = (s.emitByte byte).report line place m := by
  unfold State.report State.emitByte
  split <;> rfl

theorem steady_emitBackJump (start : Nat) : KeepsFrom (Covers start) (emitBackJump start) := by
  intro s h
  rw [Covers] at h
  have hsize : (s.emitByte Opcode.loop.toByte).draft.bytecode.size = s.draft.bytecode.size + 1 := by
    simp [State.emitByte]
  have hwritten : ∀ d ≤ maxDistance, Steady s
      (((s.emitByte Opcode.loop.toByte).emitByte (d / 256).toUInt8).emitByte d.toUInt8) := by
    intro d hd
    refine steady_code [⟨.loop, d⟩] s.previous.line (s := s) (b := ((s.draft.bytecode.write Opcode.loop.toByte
      s.previous.line).write (d / 256).toUInt8 s.previous.line).write d.toUInt8 s.previous.line) rfl ?_ rfl ?_ ?_
    · simp [Instr.bytes, Opcode.width]
    · simpa [Instr.Fits, Opcode.width, maxDistance, Nat.lt_succ_iff] using hd
    · exact .singleton rfl _
  have hle : start ≤ (s.emitByte Opcode.loop.toByte).draft.bytecode.size := by omega
  rw [emitBackJump, run_bind, run_emit, run_bind, run_codeSize, run_bind,
    run_ensure (decide_eq_true hle), run_bind, run_codeSize, run_bind, loopDistance]
  by_cases hd : (s.emitByte Opcode.loop.toByte).draft.bytecode.size - start + 2 ≤ maxDistance
  · rw [if_pos hd]
    exact hwritten _ hd
  · rw [if_neg hd]
    have hrun : ((mistake .loopTooLarge >>= fun _ => pure maxDistance : Action Nat).run
        (s.emitByte Opcode.loop.toByte)) = (maxDistance, (s.emitByte Opcode.loop.toByte).report
          s.previous.line (.ofToken s.previous) .loopTooLarge) := rfl
    rw [hrun]
    change Steady s (((s.emitByte Opcode.loop.toByte).report _ _ _).emitByte _ |>.emitByte _)
    rw [report_emitByte, report_emitByte]
    exact IsTrans.trans _ _ _ (hwritten maxDistance (Nat.le_refl _)) (steady_report _ _ _ _)

end Compiler
end StackScript
