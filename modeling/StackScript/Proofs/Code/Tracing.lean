import StackScript.Proofs.Code.Traced

/-! What happens when a token is read, an instruction is written, a constant is asked for or a variable is declared. -/
namespace StackScript.Compiler
variable {α β : Type} {a : Action α} {line : Nat → Nat} {c d : Context} {p : Progress} {s t : State}

/-! ### Where nothing happens -/

theorem quiet_report (s : State) (n : Nat) (place : Place) (m : Mistake) : Quiet s (s.report n place m) := by
  unfold State.report
  split <;> exact ⟨⟨rfl, rfl, rfl, rfl⟩, rfl, rfl, .refl _, rfl⟩

theorem quiet_mistake (m : Mistake) : Keeps Quiet (mistake m) :=
  Keeps.get.bind fun _ => .modify fun s => quiet_report s _ _ _

theorem quiet_mistakeAhead (m : Mistake) : Keeps Quiet (mistakeAhead m) :=
  Keeps.get.bind fun _ => .modify fun s => quiet_report s _ _ _

theorem quiet_ensure (b : Bool) (defect : Defect) : Keeps Quiet (ensure b defect) := by
  unfold ensure
  split
  · exact .pure _
  · exact .modify fun _ => ⟨⟨rfl, rfl, rfl, rfl⟩, rfl, rfl, .refl _, rfl⟩

theorem quiet_intern (x : String) : Keeps Quiet (intern x) :=
  .modifyGet fun _ => ⟨⟨rfl, rfl, rfl, rfl⟩, rfl, rfl, .of_intern _ x, rfl⟩

theorem quiet_countArgument (count : Nat) : Keeps Quiet (countArgument count) :=
  .branch _ (quiet_mistake _) fun _ => .pure _

theorem quiet_checkNew (x : String) : Keeps Quiet (checkNew x) :=
  Keeps.get.bind fun _ => .ite _ (quiet_mistake _) (.pure _)

theorem quiet_addLocal (x : String) : Keeps Quiet (addLocal x) :=
  Keeps.get.bind fun _ => .ite _ (quiet_mistake _) <| .modify fun _ => ⟨⟨rfl, rfl, rfl, rfl⟩, rfl, rfl, .refl _, rfl⟩

theorem quiet_declareLocal (x : String) : Keeps Quiet (declareLocal x) :=
  Keeps.get.bind fun _ => .ite _ ((quiet_checkNew x).seq (quiet_addLocal x)) (.pure _)

theorem quiet_bringInScope : Keeps Quiet bringInScope := by
  refine .modify fun s => ?_
  split
  · refine ⟨⟨rfl, rfl, rfl, rfl⟩, ?_, ?_, .refl _, rfl⟩
    all_goals
      unfold Draft.bringInScope
      split <;> rfl
  · exact Std.Refl.refl s

theorem quiet_enterScope : Keeps Quiet enterScope := .modify fun _ => ⟨⟨rfl, rfl, rfl, rfl⟩, rfl, rfl, .refl _, rfl⟩

theorem quiet_checkParameterCount (count : Nat) : Keeps Quiet (checkParameterCount count) :=
  .ite _ (quiet_mistakeAhead _) (.pure _)

theorem quiet_setArity (count : Nat) : Keeps Quiet (setArity count) :=
  .modify fun _ => ⟨⟨rfl, rfl, rfl, rfl⟩, rfl, rfl, .refl _, rfl⟩

/-- An action that makes no mistake, and while it is done nothing happens. -/
theorem Stands.tries_quiet {P : Prop} {Q : α → State → Prop} (h : Stands line c p s) (hq : Keeps Quiet a)
    (he : Effect P a s Q) (hp : P) (hd : ∀ x t, Q x t → Describes d t) :
    Tries a s fun x t => Q x t ∧ Traces line d p [] s t :=
  ⟨(he.tries hp).crowded, fun _ => ⟨he.result hp, h.quiet (hd _ _ (he.result hp)) (hq s)⟩⟩

/-! ### Tokens -/

theorem trail_advance (h : ∀ l ∈ s.upcoming, ∃ t, l = .token t) (n : Nat) : s.advance.trail n = s.trail (n + 1) := by
  unfold State.advance
  cases hu : s.upcoming with
  | nil => rcases n with - | - | n <;> simp [State.trail, State.fetch, hu, Token.sourceEnd]
  | cons l ls =>
    obtain ⟨t, rfl⟩ := h l (hu ▸ List.mem_cons_self)
    simp [State.trail, State.fetch, hu, Lexeme.line]

theorem tries_advance (h : Stands line c p s) (w : Word) :
    Tries advance s fun _ t => Traces line c p [.read w] s t := by
  have hd : Emits c [] s s.advance := (effect_advance h.describes).result trivial
  have htrail := trail_advance h.describes.faultless
  obtain ⟨current, upcoming, heq, -⟩ := advance_eq h.describes.faultless
  refine .of_run (run_advance s) hd.describes.not_failed ⟨⟨hd.describes, fun n => ?_, ?_⟩, ?_,
    by simp [Progress.code, Progress.instr?], by simp [Progress.Asked], ?_, ?_, ⟨[], ?_, .nil⟩⟩
  · rw [htrail, h.trail, Progress.after_cons, Progress.after_nil, Progress.next, Nat.add_assoc, Nat.add_comm 1 n]
  all_goals rw [heq]
  · exact h.holds
  · exact (List.append_nil _).symm
  · rfl
  · exact .refl _
  · exact (List.append_nil _).symm

theorem tries_readComma (h : Stands line c p s) {α : Type} (xs : List α) :
    Tries (readComma xs) s fun _ t => Traces line c p (commaEvents xs) s t := by
  cases xs with
  | nil => exact .pure h.describes.not_failed h.refl
  | cons x xs => exact tries_advance h _

/-! ### Instructions -/

/-- An instruction is written behind the code. Its bytes are on the line of the token read last. -/
theorem Stands.write (h : Stands line c p s) {e : Event} {i : Instr} {code : Array UInt8} {lines : LineTable}
    (hinstr : p.instr? e = some i) (hnext : p.next e = p) (hfits : i.Fits) (hhistories : ∀ n, e.histories n = [])
    (hasked : ∀ {op x}, e = .access op x → .global x ∈ p.entries)
    (hcode : code.toList = s.draft.bytecode.code.toList ++ i.bytes)
    (hlines : lines = (List.replicate i.size s.previous.line).foldl LineTable.push s.draft.bytecode.lines) :
    Traces line c p [e] s { s with draft := { s.draft with bytecode := { s.draft.bytecode with code, lines } } } := by
  have hline : s.previous.line = line p.words := h.trail 0
  refine ⟨?_, ?_, ?_, ⟨hasked, trivial⟩, ?_, .refl _, [], (List.append_nil _).symm, ?_⟩
  · rw [Progress.after_cons, hnext]
    exact ⟨h.describes.with_code code lines, h.trail, h.holds.constants, h.holds.named, h.holds.known⟩
  · simp [Progress.code, hinstr, hcode]
  · simpa [Progress.code, hinstr] using hfits
  · simp [Progress.placed, hinstr, hnext, byteLines, hlines, hline]
  · simp [hhistories]

theorem tries_emit (h : Stands line c p s) {op : Opcode} (hw : op.width = 0) :
    Tries (emit op) s fun _ t => Traces line c p [op.event] s t := by
  refine .of_run (run_emit op s) (describes_emitByte h.describes _).not_failed
    (h.write (i := ⟨op, 0⟩) rfl rfl (by simp [Instr.Fits, hw]) (fun _ => rfl) (by simp [Opcode.event]) ?_ ?_)
  · simp [Instr.bytes, hw]
  · simp [Instr.size, hw]

/-- An instruction with one operand byte is written. -/
theorem tries_emitWith (h : Stands line c p s) {e : Event} {op : Opcode} {operand : UInt8} (hw : op.width = 1)
    (hinstr : p.instr? e = some ⟨op, operand.toNat⟩) (hnext : p.next e = p) (hhistories : ∀ n, e.histories n = [])
    (hasked : ∀ {op x}, e = .access op x → .global x ∈ p.entries) :
    Tries (emitWith op operand) s fun _ t => Traces line c p [e] s t := by
  refine .of_run rfl (describes_emitByte (describes_emitByte h.describes _) _).not_failed
    (h.write hinstr hnext ?_ hhistories hasked ?_ ?_)
  · simpa [Instr.Fits, hw] using operand.toNat_lt
  · simp [State.emitByte, Instr.bytes, hw, Bytecode.write]
  · simp [State.emitByte, Instr.size, hw, Bytecode.write]

/-! ### Jumps -/

theorem tries_openJump (h : Stands line c p s) {op : Opcode} (hw : op.width = 2) :
    Tries (openJump op) s fun offset t =>
      offset = s.draft.bytecode.size + 1 ∧ Traces line c p [.emit ⟨op, maxDistance⟩] s t := by
  have hd := describes_emitByte (describes_emitByte (describes_emitByte h.describes op.toByte) 0xff) 0xff
  refine .of_run rfl hd.not_failed ⟨?_, h.write (i := ⟨op, maxDistance⟩) rfl rfl ?_ (fun _ => rfl) (by simp) ?_ ?_⟩
  · simp [State.emitByte]
  · simp [Instr.Fits, hw, maxDistance]
  · simp [State.emitByte, Instr.bytes, hw, Bytecode.write]
    decide
  · simp [State.emitByte, Instr.size, hw, Bytecode.write]

theorem code_emit (p : Progress) (pre post : List Event) (i : Instr) :
    p.code (pre ++ .emit i :: post) = p.code pre ++ i :: (p.after pre).code post := by
  rw [Progress.code_append, Progress.code]
  rfl

theorem byteLines_emit (line : Nat → Nat) (p : Progress) (pre post : List Event) (i : Instr) :
    byteLines (p.placed line (pre ++ .emit i :: post)) = byteLines (p.placed line pre) ++
      (List.replicate i.size (line (p.after pre).words) ++ byteLines ((p.after pre).placed line post)) := by
  rw [Progress.placed_append, Progress.placed, byteLines_append]
  rfl

/-- Closing a jump sets its distance, so that it goes over what has been written since. -/
theorem tries_closeJump (pre post : List Event) {op : Opcode} {m n offset : Nat} (hw : op.width = 2)
    (h : Traces line c p (pre ++ .emit ⟨op, n⟩ :: post) s t)
    (hoffset : offset = s.draft.bytecode.size + Event.allSize pre + 1) (hm : Event.allSize post = m)
    (hle : m ≤ maxDistance) :
    Tries (closeJump offset) t fun _ u => Traces line c p (pre ++ .emit ⟨op, m⟩ :: post) s u := by
  subst hm
  have hsize : t.draft.bytecode.size = offset + 2 + Event.allSize post := by
    rw [h.size, hoffset]
    simp [Instr.size, hw]
    omega
  have hdistance : t.draft.bytecode.size - offset - 2 = Event.allSize post := by omega
  have hrun : (closeJump offset).run t = ((), { t with draft := { t.draft with
      bytecode := t.draft.bytecode.patch offset (Event.allSize post) } }) := by
    rw [closeJump, run_bind, run_codeSize, run_bind, run_ensure (decide_eq_true (by omega)), run_bind, run_codeSize,
      hdistance]
    dsimp only
    rw [if_pos hle, run_modify]
  have hd := h.stands.describes.with_code (t.draft.bytecode.patch offset (Event.allSize post)).code
    t.draft.bytecode.lines
  have hafter : p.after (pre ++ .emit ⟨op, Event.allSize post⟩ :: post) = p.after (pre ++ .emit ⟨op, n⟩ :: post) := by
    rw [Progress.after_append, Progress.after_append]
    rfl
  refine .of_run hrun hd.not_failed ⟨?_, ?_, ?_, ?_, ?_, h.store, ?_⟩
  · rw [hafter]
    exact ⟨hd, h.stands.trail, h.stands.holds.constants, h.stands.holds.named, h.stands.holds.known⟩
  · have hcode := h.code
    rw [code_emit] at hcode ⊢
    simp only [codeBytes_append, codeBytes_cons, Instr.bytes, hw, List.cons_append, List.nil_append,
      ← List.append_assoc] at hcode
    have hlen : (s.draft.bytecode.code.toList ++ codeBytes (p.code pre)).length + 1 = offset := by
      rw [hoffset, List.length_append, length_codeBytes, Progress.codeLength_code, Array.length_toList, Bytecode.size]
    have hpatch := code_patch (Event.allSize post) hcode
    rw [hlen] at hpatch
    simpa [Instr.bytes, hw] using hpatch
  · have hfits := h.fits
    rw [code_emit] at hfits ⊢
    obtain ⟨hpre, hpost⟩ := List.forall_mem_append.1 hfits
    refine List.forall_mem_append.2 ⟨hpre, List.forall_mem_cons.2 ⟨?_, (List.forall_mem_cons.1 hpost).2⟩⟩
    simpa [Instr.Fits, hw, maxDistance, Nat.lt_succ_iff] using hle
  · obtain ⟨hpre, -, hpost⟩ := Progress.asked_append.1 h.asked
    exact Progress.asked_append.2 ⟨hpre, by simp, hpost⟩
  · change t.draft.bytecode.lines = _
    rw [h.lines, byteLines_emit, byteLines_emit]
    rfl
  · obtain ⟨fs, hfs, hall⟩ := h.functions
    rw [Event.allHistories_append] at hall ⊢
    exact ⟨fs, hfs, hall⟩

/-- A jump back to where something has begun is written behind it. -/
theorem tries_emitBackJump {es : List Event} {m : Nat} (h : Traces line c p es s t) (hm : Event.allSize es + 3 = m)
    (hle : m ≤ maxDistance) :
    Tries (emitBackJump s.draft.bytecode.size) t fun _ u => Traces line c (p.after es) [.emit ⟨.loop, m⟩] t u := by
  subst hm
  have hsize := h.size
  have hsize' : (t.emitByte Opcode.loop.toByte).draft.bytecode.size = t.draft.bytecode.size + 1 := by
    simp [State.emitByte]
  have hstart : s.draft.bytecode.size ≤ (t.emitByte Opcode.loop.toByte).draft.bytecode.size := by omega
  have hdistance : (t.emitByte Opcode.loop.toByte).draft.bytecode.size - s.draft.bytecode.size + 2 =
      Event.allSize es + 3 := by omega
  have hd := describes_emitByte (describes_emitByte (describes_emitByte h.stands.describes Opcode.loop.toByte)
    ((Event.allSize es + 3) / 256).toUInt8) (Event.allSize es + 3).toUInt8
  refine .of_run (x := ()) (t := ((t.emitByte Opcode.loop.toByte).emitByte
    ((Event.allSize es + 3) / 256).toUInt8).emitByte
    (Event.allSize es + 3).toUInt8) ?_ hd.not_failed (h.stands.write rfl rfl ?_ (fun _ => rfl) (by simp) ?_ ?_)
  · rw [emitBackJump, run_bind, run_emit, run_bind, run_codeSize, run_bind, run_ensure (decide_eq_true hstart),
      run_bind, run_codeSize, hdistance]
    dsimp only
    rw [loopDistance, if_pos hle]
    rfl
  · simpa [Instr.Fits, Opcode.width, maxDistance, Nat.lt_succ_iff] using hle
  · simp [State.emitByte, Instr.bytes, Opcode.width, Bytecode.write]
  · simp [State.emitByte, Instr.size, Opcode.width, Bytecode.write]

/-! ### Constants -/

section Constants
variable {entries : List Entry} {draft : Draft} {store : Store} {v : Value}

theorem Holds.length (h : Holds entries draft store) : draft.bytecode.constants.size = entries.length := by
  rw [← Array.length_toList, h.constants.length_eq]

theorem Holds.push (h : Holds entries draft store) {e : Entry} (hv : e.Means store v) (he : e.global? = none) :
    Holds (entries ++ [e]) { draft with bytecode :=
      { draft.bytecode with constants := draft.bytecode.constants.push v } } store where
  constants := by
    rw [Array.toList_push]
    exact List.rel_append h.constants (.cons hv .nil)
  named hi := by
    obtain ⟨x, hx, hmem, hidx⟩ := h.named hi
    exact ⟨x, hx, List.mem_append_left _ hmem, by rw [List.idxOf_append_of_mem hmem, hidx]⟩
  known hx := by
    refine h.known ((List.mem_append.1 hx).resolve_right fun hmem => ?_)
    rw [← List.mem_singleton.1 hmem] at he
    cases he

/-- A global name gets the last constant, unless it has one. -/
theorem Holds.pushName (h : Holds entries draft store) {a : Symbol} {x : String} (ha : store.text? a = some x)
    (hroom : entries.length < 256) (hlookup : draft.names.lookup a = none) :
    .global x ∉ entries ∧ Holds (entries ++ [.global x]) { draft with
      bytecode := { draft.bytecode with constants := draft.bytecode.constants.push (.string a) },
      names := (a, draft.bytecode.constants.size.toUInt8) :: draft.names } store := by
  have hnew : Entry.global x ∉ entries := by
    intro hmem
    obtain ⟨b, i, hb, hi⟩ := h.known hmem
    rw [Store.symbol_eq ha hb, hi] at hlookup
    cases hlookup
  have hindex : (entries ++ [Entry.global x]).idxOf (.global x) = draft.bytecode.constants.size.toUInt8.toNat := by
    rw [h.length, UInt8.toNat_ofNat_of_lt' hroom, List.idxOf_append_of_notMem hnew]
    simp
  refine ⟨hnew, ?_, fun {b i} hi => ?_, fun {y} hy => ?_⟩
  · rw [Array.toList_push]
    exact List.rel_append h.constants (.cons ⟨a, ha, rfl⟩ .nil)
  · by_cases hb : b = a
    · rw [hb, List.lookup_cons_self] at hi
      rw [hb, ← Option.some.inj hi]
      exact ⟨x, ha, by simp, hindex⟩
    · rw [lookup_cons_of_ne hb] at hi
      obtain ⟨y, hy, hmem, hidx⟩ := h.named hi
      exact ⟨y, hy, List.mem_append_left _ hmem, by rw [List.idxOf_append_of_mem hmem, hidx]⟩
  · rcases List.mem_append.1 hy with hmem | hmem
    · obtain ⟨b, i, hb, hi⟩ := h.known hmem
      refine ⟨b, i, hb, ?_⟩
      rwa [lookup_cons_of_ne]
      rintro rfl
      rw [hlookup] at hi
      cases hi
    · obtain rfl : y = x := Entry.global.inj (List.mem_singleton.1 hmem)
      exact ⟨a, _, ha, List.lookup_cons_self⟩

end Constants

/-- An entry has been added to the constants of a function, and its value is put on the stack. -/
structure Puts (line : Nat → Nat) (c : Context) (p : Progress) (e : Entry) (s t : State) : Prop where
  stands : Stands line c { p with entries := p.entries ++ [e] } t
  code : t.draft.bytecode.code.toList = s.draft.bytecode.code.toList ++ (⟨.constant, p.entries.length⟩ : Instr).bytes
  fits : (⟨.constant, p.entries.length⟩ : Instr).Fits
  lines : t.draft.bytecode.lines = (List.replicate 2 (line p.words)).foldl LineTable.push s.draft.bytecode.lines
  store : t.store = s.store

theorem Stands.tries_tooMany {Q : α → State → Prop} (h : Stands line c p s)
    (herrors : (a.run s).2.errors = (s.report s.previous.line (.ofToken s.previous) .tooManyConstants).errors) :
    Tries a s Q := by
  have hcrowded := (crowded_of_not_failed h.describes.not_failed).report s.previous.line (.ofToken s.previous)
  refine ⟨?_, fun hn => absurd (failed_mistake (.inl h.describes.ready) .tooManyConstants) ?_⟩
  · rw [Crowded, herrors]
    exact hcrowded
  · rw [Failed, herrors] at hn
    exact hn

theorem tries_emitConstant (h : Stands line c p s) {e : Entry} {v : Value} (hv : e.Means s.store v)
    (he : e.global? = none) (hs : s.store.Sound v) :
    Tries (emitConstant v) s fun _ t => Puts line (c.add .one) p e s t := by
  have heffect := effect_emitConstant h.describes hs
  have hsize := h.holds.length
  have hline : s.previous.line = line p.words := h.trail 0
  by_cases hroom : s.draft.bytecode.constants.size < Bytecode.maxConstants
  · have hrun := (run_unit (emitConstant v) s).trans (congrArg (Prod.mk ()) (run_emitConstant_of_lt hroom))
    have hnf : ¬Failed ((emitConstant v).run s).2 := by
      rw [hrun]
      exact fun hf => hf h.describes.ready.errors
    obtain ⟨_, ht, -⟩ := heffect.of_not_failed hnf
    have hd := ht.describes
    have hheld := h.holds.push hv he
    rw [hrun] at hd hnf
    refine .of_run hrun hnf ⟨⟨hd, h.trail, hheld.constants, hheld.named, hheld.known⟩, ?_, ?_, ?_, rfl⟩
    · rw [code_emitByte, code_emitByte]
      simp [Instr.bytes, Opcode.width, hsize]
    · simpa [Instr.Fits, Opcode.width, ← hsize, Bytecode.maxConstants] using hroom
    · rw [← hline]
      rfl
  · have hrun := (run_unit (emitConstant v) s).trans (congrArg (Prod.mk ()) (run_emitConstant_of_not_lt hroom))
    exact h.tries_tooMany (by rw [hrun]; rfl)

/-- A literal is put on the stack. -/
theorem Puts.literal {l : Literal} (h : Puts line d p (.literal l) s t) : Traces line d p [.literal l] s t where
  stands := h.stands
  code := by
    rw [h.code]
    exact congrArg _ (List.append_nil _).symm
  fits := List.forall_mem_singleton.2 h.fits
  asked := ⟨by simp, trivial⟩
  lines := h.lines
  store := by
    rw [h.store]
    exact .refl _
  functions := ⟨[], by rw [h.store, List.append_nil], .nil⟩

theorem run_newNameConstant_of_lt {a : Symbol} (h : s.draft.bytecode.constants.size < Bytecode.maxConstants) :
    (newNameConstant a).run s = (s.draft.bytecode.constants.size.toUInt8, { s with draft := { s.draft with
      bytecode := { s.draft.bytecode with constants := s.draft.bytecode.constants.push (.string a) },
      names := (a, s.draft.bytecode.constants.size.toUInt8) :: s.draft.names } }) := by
  simp only [newNameConstant, run_bind, run_get, addConstant?_of_lt h]
  rfl

theorem run_newNameConstant_of_not_lt {a : Symbol} (h : ¬s.draft.bytecode.constants.size < Bytecode.maxConstants) :
    (newNameConstant a).run s = (0, ((mistake .tooManyConstants).run s).2) := by
  simp only [newNameConstant, run_bind, run_get, addConstant?_of_not_lt h]
  rfl

theorem tries_newNameConstant (h : Stands line c p s) {a : Symbol} {x : String} (ha : s.store.text? a = some x)
    (hlookup : s.draft.names.lookup a = none) :
    Tries (newNameConstant a) s fun i t =>
      Traces line (c.add { globals := {x} }) p [.ask x] s t ∧ (p.after [.ask x]).Knows x i.toNat := by
  have hsize := h.holds.length
  by_cases hroom : s.draft.bytecode.constants.size < Bytecode.maxConstants
  · have hrun := run_newNameConstant_of_lt (a := a) hroom
    obtain ⟨hnew, hheld⟩ := h.holds.pushName ha (hsize ▸ hroom) hlookup
    have hnext : p.after [.ask x] = { p with entries := p.entries ++ [.global x] } := if_neg hnew
    have hnf : ¬Failed ((newNameConstant a).run s).2 := by
      rw [hrun]
      exact fun hf => hf h.describes.ready.errors
    have hd := ((effect_newNameConstant h.describes ha hlookup).of_not_failed hnf).1.describes
    rw [hrun] at hd hnf
    refine .of_run hrun hnf ⟨⟨?_, (List.append_nil _).symm, by simp [Progress.code, Progress.instr?],
      by simp [Progress.Asked], rfl, .refl _, [], (List.append_nil _).symm, .nil⟩, ?_⟩
    · rw [hnext]
      exact ⟨hd, h.trail, hheld.constants, hheld.named, hheld.known⟩
    · rw [hnext]
      obtain ⟨y, hy, hmem, hidx⟩ := hheld.named List.lookup_cons_self
      obtain rfl : y = x := Option.some.inj (hy.symm.trans ha)
      exact ⟨hmem, hidx⟩
  · have hrun := run_newNameConstant_of_not_lt (a := a) hroom
    exact h.tries_tooMany (by rw [hrun]; rfl)

theorem tries_nameConstant (h : Stands line c p s) (x : String) :
    Tries (nameConstant x) s fun i t =>
      Traces line (c.add { globals := {x} }) p [.ask x] s t ∧ (p.after [.ask x]).Knows x i.toNat := by
  refine (h.tries_quiet (quiet_intern x) (effect_intern h.describes x) trivial fun _ _ hx => hx.1.describes).bind ?_
  rintro a t ⟨⟨-, ha, -⟩, ht⟩
  cases hlookup : t.draft.names.lookup a with
  | some i =>
    have hrun : (symbolConstant a).run t = (i, t) := by simp only [symbolConstant, run_bind, run_get, hlookup, run_pure]
    obtain ⟨y, hy, hmem, hidx⟩ := ht.stands.holds.named hlookup
    obtain rfl : y = x := Option.some.inj (hy.symm.trans ha)
    have hnext : p.after [.ask y] = p := if_pos hmem
    have hd := ht.stands.describes
    refine .of_run hrun hd.not_failed ⟨⟨?_, ?_, by simp [Progress.code, Progress.instr?],
      by simp [Progress.Asked], ht.lines, ht.store, ht.functions⟩, ?_⟩
    · rw [hnext, hd.add_of_lookup ha hlookup]
      exact ht.stands
    · rw [ht.code]
      rfl
    · rw [hnext]
      exact ⟨hmem, hidx⟩
  | none =>
    refine .of_run_eq (t := t) ?_ ((tries_newNameConstant ht.stands ha hlookup).mono ?_)
    · simp only [symbolConstant, run_bind, run_get, hlookup]
    · rintro i u ⟨hu, hi⟩
      exact ⟨ht.trans hu, hi⟩

/-! ### Variables -/

/-- A variable is accessed as the names in scope and the constants say. -/
def Reach (p : Progress) (names : List String) (x : String) (a : Access) : Prop :=
  match slot? x names with
  | some i => i < 256 ∧ a = ⟨.getLocal, .setLocal, i.toUInt8⟩
  | none => ∃ i, a = ⟨.getGlobal, .setGlobal, i⟩ ∧ p.Knows x i.toNat

theorem Reach.after {names : List String} {x : String} {a : Access} (h : Reach p names x a) (es : List Event) :
    Reach (p.after es) names x a := by
  unfold Reach at h ⊢
  split
  · rename_i i hslot
    simpa only [hslot] using h
  · rename_i hslot
    simp only [hslot] at h
    exact h.imp fun i ⟨ha, hi⟩ => ⟨ha, hi.after es⟩

theorem tries_accessTo (h : Stands line c p s) {x : String} (hx : c.pending ≠ some x) :
    Tries (accessTo x) s fun a t => Traces line (c.add (.name c.scope.names x)) p (askEvents c.scope.names x) s t ∧
      Reach (p.after (askEvents c.scope.names x)) c.scope.names x a := by
  have hfind : Draft.findLocal? x s.draft.locals = Draft.findLocal? x c.scope.locals := by
    rw [h.describes.locals, findLocal?_pending hx]
  have hslot : (Draft.findLocal? x c.scope.locals).map Prod.fst = slot? x c.scope.names := by
    rw [map_findLocal?, Scope.locals, names_blockLocals]
    rfl
  cases hl : Draft.findLocal? x c.scope.locals with
  | some iv =>
    obtain ⟨i, v⟩ := iv
    rw [hl] at hslot hfind
    obtain ⟨depth, hdepth, -⟩ := depth_lt_of_mem_blockLocals (mem_of_findLocal? hl)
    have hi : i < 256 := Nat.lt_of_lt_of_le (slot?_lt hslot.symm) h.describes.live_le
    have hmem : x ∈ c.scope.names := by
      by_contra hn
      rw [slot?_eq_none.2 hn] at hslot
      cases hslot
    have hrun : (accessTo x).run s = (⟨.getLocal, .setLocal, i.toUInt8⟩, s) := by
      rw [run_accessTo_local hfind, checkInitialized, hdepth]
      rfl
    rw [Needs.name, if_pos hmem, Context.add_zero, askEvents, if_pos hmem]
    refine .of_run hrun h.describes.not_failed ⟨h.refl, ?_⟩
    simp only [Reach, ← hslot, Option.map_some]
    exact ⟨hi, trivial⟩
  | none =>
    rw [hl] at hslot hfind
    have hmem : x ∉ c.scope.names := slot?_eq_none.1 hslot.symm
    rw [Needs.name, if_neg hmem, askEvents, if_neg hmem]
    refine .of_run_eq (t := s) (run_accessTo_global hfind) ((tries_nameConstant h x).bind ?_)
    rintro i t ⟨ht, hi⟩
    refine .pure ht.stands.describes.not_failed ⟨ht, ?_⟩
    simp only [Reach, ← hslot, Option.map_none]
    exact ⟨i, rfl, hi⟩

theorem tries_access (h : Stands line c p s) {names : List String} {x : String} {a : Access} (ha : Reach p names x a) :
    Tries (emitWith a.get a.operand) s (fun _ t => Traces line c p [getEvent names x] s t) ∧
      Tries (emitWith a.set a.operand) s fun _ t => Traces line c p [setEvent names x] s t := by
  unfold Reach at ha
  unfold getEvent setEvent accessEvent
  cases hslot : slot? x names with
  | some i =>
    simp only [hslot] at ha
    obtain ⟨hi, rfl⟩ := ha
    have hbyte : i.toUInt8.toNat = i := UInt8.toNat_ofNat_of_lt' hi
    refine ⟨tries_emitWith h rfl ?_ rfl (fun _ => rfl) (by simp), tries_emitWith h rfl ?_ rfl (fun _ => rfl) (by simp)⟩
    all_goals rw [hbyte]
    all_goals rfl
  | none =>
    simp only [hslot] at ha
    obtain ⟨i, rfl, hmem, hidx⟩ := ha
    have hasked : ∀ op' op y, Event.access op' x = .access op y → .global y ∈ p.entries := by
      rintro _ _ _ ⟨⟩
      exact hmem
    refine ⟨tries_emitWith h rfl ?_ rfl (fun _ => rfl) (hasked _ _ _), tries_emitWith h rfl ?_ rfl (fun _ => rfl)
      (hasked _ _ _)⟩
    all_goals rw [← hidx]
    all_goals rfl

/-! ### Declarations -/

theorem tries_writeNewName (h : Stands line c p s) (hp : c.pending = none) {x : String} (hx : c.scope.Admits x) :
    Tries (Decl.writeNewName x) s fun i t =>
      Traces line ((c.announce x).add (Decl.nameNeeds c.scope x)) p (Decl.nameEvents c.scope x) s t ∧
        (c.scope.isLocal = false → (p.after (Decl.nameEvents c.scope x)).Knows x i.toNat) := by
  refine (tries_advance h ⟨.ident, x⟩).bind fun _ t ht => ?_
  refine (ht.stands.tries_quiet (quiet_declareLocal x) (effect_declareLocal ht.stands.describes hp x) hx
    fun _ _ hd => hd.describes).bind ?_
  rintro _ u ⟨-, hu⟩
  have hiff := depth_pos_iff hu.stands.describes
  rw [scope_announce] at hiff
  cases hl : c.scope.isLocal with
  | true =>
    rw [Decl.nameNeeds, Decl.nameEvents, hl, if_pos rfl, if_pos rfl, Context.add_zero]
    refine .of_run (x := 0) (t := u) ?_ hu.stands.describes.not_failed ⟨ht.trans hu, ?_⟩
    · rw [run_bind, run_get, if_pos (hiff.2 hl), run_pure]
    · exact fun hg => absurd hg (Bool.noConfusion)
  | false =>
    rw [Decl.nameNeeds, Decl.nameEvents, hl, if_neg Bool.false_ne_true, if_neg Bool.false_ne_true]
    refine .of_run_eq (t := u) ?_ ((tries_nameConstant hu.stands x).mono ?_)
    · rw [run_bind, run_get, if_neg (by rw [hiff, hl]; decide)]
    · rintro i v ⟨hv, hi⟩
      exact ⟨ht.trans (hu.trans hv), fun _ => hi⟩

theorem tries_bringInScope (h : Stands line c p s) (hb : Effect True bringInScope s fun _ t => Emits d [] s t) :
    Tries bringInScope s fun _ t => Traces line d p [] s t :=
  (h.tries_quiet quiet_bringInScope hb trivial fun _ _ hd => hd.describes).mono fun _ _ ⟨_, ht⟩ => ht

theorem tries_settleVariable (h : Stands line c p s) {i : UInt8} {x : String}
    (hb : Effect True bringInScope s fun _ t => Emits d [] s t) (hi : c.scope.isLocal = false → p.Knows x i.toNat) :
    Tries (settleVariable i) s fun _ t => Traces line d p (Decl.settleEvents c.scope.isLocal x) s t := by
  have hquiet := h.tries_quiet quiet_bringInScope hb trivial fun _ _ hd => hd.describes
  cases hl : c.scope.isLocal with
  | true =>
    exact .of_run_eq (t := s) (run_settleVariable_local ((depth_pos_iff h.describes).2 hl))
      (hquiet.mono fun _ _ ⟨_, ht⟩ => ht)
  | false =>
    have hdepth : ¬0 < s.draft.depth := by simp [depth_pos_iff h.describes, hl]
    have hd := hb.result trivial
    rw [run_bringInScope_global h.describes hl] at hd
    have hs : Stands line d p s := ⟨hd.describes, h.trail, h.holds⟩
    refine .of_run_eq (t := s) (run_settleVariable_global hdepth) (tries_emitWith hs rfl ?_ rfl (fun _ => rfl) ?_)
    · rw [← (hi hl).2]
      rfl
    · rintro _ _ ⟨⟩
      exact (hi hl).1

/-! ### Blocks -/

theorem tries_emitPops (h : Stands line c p s) (n : Nat) :
    Tries (emitPops n) s fun _ t => Traces line c p (List.replicate n Opcode.pop.event) s t := by
  induction n generalizing p s with
  | zero => exact .pure h.describes.not_failed h.refl
  | succ n ih => exact (tries_emit h rfl).bind fun _ t ht => (ih ht.stands).mono fun _ u hu => ht.trans hu

theorem tries_enterScope (h : Stands line c p s) (hp : c.pending = none) :
    Tries enterScope s fun _ t => Traces line c.enter p [] s t :=
  (h.tries_quiet quiet_enterScope (effect_enterScope h.describes hp) trivial fun _ _ hd => hd.describes).mono
    fun _ _ ⟨_, ht⟩ => ht

/-- Leaving a block drops its variables. -/
theorem tries_leaveScope (h : Stands line c p s) (names : List String) {σ : Scope} (hp : c.pending = none)
    (hσ : c.scope = { σ.enter with inner := names }) :
    Tries leaveScope s fun _ t =>
      Traces line { c with scope := σ } p (List.replicate names.length Opcode.pop.event) s t := by
  obtain ⟨hd, hrun⟩ := run_leaveScope_block h.describes names hp hσ
  have hq := h.quiet hd ⟨⟨rfl, rfl, rfl, rfl⟩, rfl, rfl, .refl _, rfl⟩
  exact .of_run_eq hrun ((tries_emitPops hq.stands names.length).mono fun _ _ ht => hq.trans ht)

end StackScript.Compiler
