import StackScript.Proofs.Machine.Alike

/-! Steps of machines that are alike: each action comes to the same on both, and leaves them alike. -/
namespace StackScript.Machine
open Pairing
variable {p : Pairing} {m m' n n' : Machine} {α β α' β' : Type}

/-- What an action comes to on two machines that are alike. -/
inductive Agree (p : Pairing) (R : Store → Store → α → β → Prop) (m n : Machine) :
    EStateM.Result Halt Machine α → EStateM.Result Halt Machine β → Prop
  | ok {x : α} {y : β} {m' n' : Machine} (alike : AlikeMachines p m' n') (left : m.store.Extends m'.store)
      (right : n.store.Extends n'.store) (same : R m'.store n'.store x y) : Agree p R m n (.ok x m') (.ok y n')
  | error {halt : Halt} {m' n' : Machine} (alike : AlikeMachines p m' n') :
      Agree p R m n (.error halt m') (.error halt n')

/-- Results of which nothing is said. -/
def Any (_ _ : Store) (_ : α) (_ : β) : Prop := True

/-- Equal results. -/
def Same (_ _ : Store) (x y : α) : Prop := x = y

section
variable {R : Store → Store → α → β → Prop} {Q : Store → Store → α' → β' → Prop}

theorem Agree.bind {a : Exec α} {b : Exec β} {f : α → Exec α'} {g : β → Exec β'} (h : Agree p R m n (a.run m) (b.run n))
    (hf : ∀ {x y m' n'}, AlikeMachines p m' n' → m.store.Extends m'.store → n.store.Extends n'.store →
      R m'.store n'.store x y → Agree p Q m' n' ((f x).run m') ((g y).run n')) :
    Agree p Q m n ((a >>= f).run m) ((b >>= g).run n) := by
  rw [EStateM.run_bind, EStateM.run_bind]
  generalize a.run m = x at h
  generalize b.run n = y at h
  cases h with
  | @ok x y m' n' alike left right same =>
    have hnext := hf alike left right same
    dsimp only
    generalize (f x).run m' = x' at hnext
    generalize (g y).run n' = y' at hnext
    cases hnext with
    | ok alike left' right' same => exact .ok alike (left.trans left') (right.trans right') same
    | error alike => exact .error alike
  | error alike => exact .error alike

theorem Agree.pure (h : AlikeMachines p m n) {x : α} {y : β} (hxy : R m.store n.store x y) :
    Agree p R m n ((Pure.pure x : Exec α).run m) ((Pure.pure y : Exec β).run n) := .ok h (.refl _) (.refl _) hxy

theorem Agree.any {a : Exec α} {b : Exec β} (h : Agree p R m n (a.run m) (b.run n)) :
    Agree p Any m n (a.run m) (b.run n) := by
  generalize a.run m = x at h
  generalize b.run n = y at h
  cases h with
  | ok alike left right => exact .ok alike left right trivial
  | error alike => exact .error alike

theorem agree_fail (h : AlikeMachines p m n) (e : RuntimeError) :
    Agree p R m n ((fail e : Exec α).run m) ((fail e : Exec β).run n) := .error h

theorem agree_stuck (h : AlikeMachines p m n) (r : Stuck) :
    Agree p R m n ((stuck r : Exec α).run m) ((stuck r : Exec β).run n) := .error h

theorem agree_orStuck (h : AlikeMachines p m n) (r : Stuck) {x : Option α} {y : Option β}
    (hxy : Option.Rel (R m.store n.store) x y) : Agree p R m n ((orStuck r x).run m) ((orStuck r y).run n) := by
  cases hxy with
  | some hab => exact .pure h hab
  | none => exact agree_stuck h r

end

theorem agree_orStuck_eq (h : AlikeMachines p m n) (r : Stuck) {x y : Option α} (hxy : x = y) :
    Agree p Same m n ((orStuck r x).run m) ((orStuck r y).run n) := by
  subst hxy
  refine agree_orStuck h r ?_
  cases x with
  | some a => exact .some rfl
  | none => exact .none

/-- A machine is changed, but not its store. -/
theorem Agree.changed (h : AlikeMachines p m' n') (hm : m.store = m'.store) (hn : n.store = n'.store) :
    Agree p Any m n (.ok () m') (.ok () n') := .ok h (hm ▸ .refl _) (hn ▸ .refl _) trivial

/-! ### Code -/

theorem agree_readByte (h : AlikeMachines p m n) : Agree p Same m n (readByte.run m) (readByte.run n) := by
  have hframes := h.frames
  unfold readByte EStateM.run
  generalize hfs : m.frames = fs at hframes
  generalize hgs : n.frames = gs at hframes
  dsimp only
  rw [hfs, hgs]
  cases hframes with
  | nil => exact .error h
  | @cons f g fs gs hfg hrest =>
    dsimp only
    rw [hfg.function.bytecode.code, hfg.ip]
    split
    · exact .ok (h.with_frames (.cons ⟨hfg.function, rfl, hfg.base⟩ hrest)) (.refl _) (.refl _) rfl
    · exact .error h

theorem agree_readPair (h : AlikeMachines p m n) : Agree p Same m n (readPair.run m) (readPair.run n) :=
  (agree_readByte h).bind fun h _ _ hhigh => (agree_readByte h).bind fun h _ _ hlow => by
    obtain rfl := hhigh
    obtain rfl := hlow
    exact .pure h rfl

theorem agree_frame (h : AlikeMachines p m n) : Agree p (AlikeFrames p) m n (frame.run m) (frame.run n) := by
  refine agree_orStuck h .noFrame ?_
  have hframes := h.frames
  generalize m.frames = fs at hframes
  generalize n.frames = gs at hframes
  cases hframes with
  | nil => exact .none
  | cons hfg _ => exact .some hfg

theorem agree_readConstant (h : AlikeMachines p m n) :
    Agree p p.Alike m n (readConstant.run m) (readConstant.run n) :=
  (agree_readByte h).bind fun h _ _ hi => (agree_frame h).bind fun h _ _ hfg => by
    obtain rfl := hi
    exact agree_orStuck h _ (hfg.function.bytecode.constant? _)

theorem agree_readName (h : AlikeMachines p m n) : Agree p SameText m n (readName.run m) (readName.run n) :=
  (agree_readConstant h).bind fun h _ _ hv => by
    cases hv with
    | string hab => exact .pure h hab
    | _ => exact agree_stuck h _

theorem agree_jumpTo (h : AlikeMachines p m n) (target : Nat → Option Nat) :
    Agree p Any m n ((jumpTo target).run m) ((jumpTo target).run n) := by
  have hframes := h.frames
  unfold jumpTo EStateM.run
  generalize hfs : m.frames = fs at hframes
  generalize hgs : n.frames = gs at hframes
  dsimp only
  rw [hfs, hgs]
  cases hframes with
  | nil => exact .error h
  | @cons f g fs gs hfg hrest =>
    dsimp only
    rw [hfg.ip]
    split
    · exact .changed (h.with_frames (.cons ⟨hfg.function, rfl, hfg.base⟩ hrest)) rfl rfl
    · exact .error h

/-! ### The stack -/

theorem agree_push (h : AlikeMachines p m n) {v w : Value} (hvw : p.Alike m.store n.store v w) :
    Agree p Any m n ((push v).run m) ((push w).run n) := by
  by_cases hfull : n.config.stackSize ≤ n.stack.size
  · rw [run_push_full (by rwa [h.config, h.stack.size_eq]), run_push_full hfull]
    exact .error h
  · rw [run_push (by rw [h.config, h.stack.size_eq]; omega), run_push (Nat.lt_of_not_le hfull)]
    exact .changed (h.with_stack (h.stack.push hvw)) rfl rfl

theorem agree_pop (h : AlikeMachines p m n) : Agree p p.Alike m n (pop.run m) (pop.run n) := by
  have hback := h.stack.back?
  unfold pop EStateM.run
  generalize hx : m.stack.back? = x at hback
  generalize hy : n.stack.back? = y at hback
  dsimp only
  rw [hx, hy]
  cases hback with
  | some hvw => exact .ok (h.with_stack h.stack.pop) (.refl _) (.refl _) hvw
  | none => exact .error h

theorem agree_peek (h : AlikeMachines p m n) (depth : Nat) :
    Agree p p.Alike m n ((peek depth).run m) ((peek depth).run n) := by
  have hrel := h.stack (n.stack.size - 1 - depth)
  unfold peek EStateM.run
  dsimp only
  rw [h.stack.size_eq]
  split
  · generalize m.stack[n.stack.size - 1 - depth]? = x at hrel ⊢
    generalize n.stack[n.stack.size - 1 - depth]? = y at hrel ⊢
    cases hrel with
    | some hvw => exact .ok h (.refl _) (.refl _) hvw
    | none => exact .error h
  · exact .error h

theorem agree_setTop (h : AlikeMachines p m n) {v w : Value} (hvw : p.Alike m.store n.store v w) :
    Agree p Any m n ((setTop v).run m) ((setTop w).run n) := by
  have hempty : m.stack.isEmpty = n.stack.isEmpty := by rw [Array.isEmpty, Array.isEmpty, h.stack.size_eq]
  unfold setTop EStateM.run
  dsimp only
  rw [hempty]
  split
  · exact .error h
  · exact .changed (h.with_stack (h.stack.pop.push hvw)) rfl rfl

theorem agree_truncate (h : AlikeMachines p m n) (height : Nat) :
    Agree p Any m n ((truncate height).run m) ((truncate height).run n) :=
  .changed (h.with_stack (h.stack.shrink height)) rfl rfl

theorem agree_getSlot (h : AlikeMachines p m n) (slot : UInt8) :
    Agree p p.Alike m n ((getSlot slot).run m) ((getSlot slot).run n) :=
  (agree_frame h).bind fun {f g m n} h _ _ hfg => by
    have hrel := h.stack (g.base + slot.toNat)
    refine agree_orStuck h .badSlot ?_
    rwa [hfg.base]

theorem agree_setSlot (h : AlikeMachines p m n) (slot : UInt8) {v w : Value} (hvw : p.Alike m.store n.store v w) :
    Agree p Any m n ((setSlot slot v).run m) ((setSlot slot w).run n) :=
  (agree_frame h).bind fun {f g m n} h hm hn hfg => by
    change Agree p Any m n (((if f.base + slot.toNat < m.stack.size then _ else _) : Exec Unit).run m)
      (((if g.base + slot.toNat < n.stack.size then _ else _) : Exec Unit).run n)
    rw [hfg.base, h.stack.size_eq]
    split
    · exact .changed (h.with_stack (h.stack.set _ (hvw.mono hm hn))) rfl rfl
    · exact agree_stuck h _

/-! ### Operations -/

theorem agree_combineNumbers (h : AlikeMachines p m n) {f : Double → Double → Value}
    (hf : ∀ x y s t, p.Alike s t (f x y) (f x y)) :
    Agree p Any m n ((combineNumbers f).run m) ((combineNumbers f).run n) :=
  (agree_peek h 1).bind fun h _ _ hv => (agree_peek h 0).bind fun h hm hn hw => by
    cases hv with
    | number x =>
      cases hw with
      | number y => exact (agree_pop h).bind fun h _ _ _ => agree_setTop h (hf x y _ _)
      | _ => exact agree_fail h _
    | _ => exact agree_fail h _

theorem agree_intern (h : AlikeMachines p m n) (text : String) :
    Agree p SameText m n ((intern text).run m) ((intern text).run n) :=
  have hm := Store.Extends.of_intern m.store text
  have hn := Store.Extends.of_intern n.store text
  .ok (h.with_store hm hn rfl (h.store.intern text)) hm hn (sameText_intern _ _ text)

/-- The bytes of two values are joined, if both have text. -/
theorem agree_join (h : AlikeMachines p m n) {v w v' w' : Value} (hv : p.Alike m.store n.store v v')
    (hw : p.Alike m.store n.store w w') :
    Agree p Any m n
      ((do
        if v.isTextual ∧ w.isTextual then
          let left ← orStuck .unknownReference ((← get).store.bytes? v)
          let right ← orStuck .unknownReference ((← get).store.bytes? w)
          let joined ← intern (Utf8.decode (left ++ right))
          let _ ← pop
          setTop (.string joined)
        else fail .invalidAddOperands : Exec Unit).run m)
      ((do
        if v'.isTextual ∧ w'.isTextual then
          let left ← orStuck .unknownReference ((← get).store.bytes? v')
          let right ← orStuck .unknownReference ((← get).store.bytes? w')
          let joined ← intern (Utf8.decode (left ++ right))
          let _ ← pop
          setTop (.string joined)
        else fail .invalidAddOperands : Exec Unit).run n) := by
  rw [hv.isTextual_eq, hw.isTextual_eq]
  split
  · refine (agree_orStuck_eq h _ (h.store.bytes?_eq hv)).bind fun h hm hn hleft => ?_
    refine (agree_orStuck_eq h _ (h.store.bytes?_eq (hw.mono hm hn))).bind fun h _ _ hright => ?_
    obtain rfl := hleft
    obtain rfl := hright
    refine (agree_intern h _).bind fun h _ _ hab => (agree_pop h).bind fun h hm hn _ => ?_
    exact agree_setTop h (.string (hab.mono hm hn))
  · exact agree_fail h _

theorem agree_addTop (h : AlikeMachines p m n) : Agree p Any m n (addTop.run m) (addTop.run n) :=
  (agree_peek h 1).bind fun h _ _ hv => (agree_peek h 0).bind fun h hm hn hw => by
    have hv' := hv.mono hm hn
    cases hv with
    | number x =>
      have hw' := hw
      cases hw with
      | number y => exact (agree_pop h).bind fun h _ _ _ => agree_setTop h (.number _)
      | _ => exact agree_join h hv' hw'
    | _ => exact agree_join h hv' hw

theorem agree_compareTop (h : AlikeMachines p m n) (equal : Bool) :
    Agree p Any m n ((compareTop equal).run m) ((compareTop equal).run n) :=
  (agree_pop h).bind fun h _ _ hw => (agree_peek h 0).bind fun h hm hn hv => by
    rw [hv.equals_eq (hw.mono hm hn)]
    exact agree_setTop h (.bool _)

/-! ### The console -/

theorem visible_eq {c d : Console} (h : c.visible = d.visible) : d = { c with diagnostics := d.diagnostics } := by
  cases c
  cases d
  simp only [Console.visible, Console.mk.injEq] at h
  simp [h]

/-- Listings and traces are nothing that a use of the console depends on. -/
def IsBlind (f : Console → Except ConsoleError α × Console) : Prop :=
  ∀ c text, (f { c with diagnostics := text }).1 = (f c).1 ∧ (f { c with diagnostics := text }).2.visible = (f c).2.visible

theorem isBlind_write (bytes : ByteArray) : IsBlind (·.write bytes) := fun c text => by
  unfold Console.write
  dsimp only
  split
  · exact ⟨rfl, rfl⟩
  · split <;> exact ⟨rfl, rfl⟩

theorem isBlind_flush : IsBlind Console.flush := fun c text => by
  unfold Console.flush
  exact ⟨rfl, rfl⟩

theorem isBlind_readLine : IsBlind Console.readLine := fun c text => by
  unfold Console.readLine
  dsimp only
  split <;> exact ⟨rfl, rfl⟩

theorem IsBlind.eq {f : Console → Except ConsoleError α × Console} (hf : IsBlind f) {c d : Console}
    (h : c.visible = d.visible) : (f c).1 = (f d).1 ∧ (f c).2.visible = (f d).2.visible := by
  rw [visible_eq h]
  exact ⟨(hf c _).1.symm, (hf c _).2.symm⟩

theorem agree_withConsole (h : AlikeMachines p m n) {f : Console → Except ConsoleError α × Console} (hf : IsBlind f) :
    Agree p Same m n ((withConsole f).run m) ((withConsole f).run n) := by
  obtain ⟨hresult, hconsole⟩ := hf.eq h.console
  unfold withConsole EStateM.run
  generalize hx : f m.console = x at hresult hconsole
  generalize hy : f n.console = y at hresult hconsole
  obtain ⟨x, c⟩ := x
  obtain ⟨y, d⟩ := y
  obtain rfl : x = y := hresult
  dsimp only
  rw [hx, hy]
  cases x with
  | ok a => exact .ok (h.with_console hconsole) (.refl _) (.refl _) rfl
  | error e => exact .error (h.with_console hconsole)

theorem agree_printTop (h : AlikeMachines p m n) : Agree p Any m n (printTop.run m) (printTop.run n) := by
  refine (agree_pop h).bind fun h _ _ hv => ?_
  refine (agree_orStuck_eq h _ (h.store.bytes?_eq hv)).bind fun h _ _ hbytes => ?_
  obtain rfl := hbytes
  exact (agree_withConsole h (isBlind_write _)).any

theorem agree_readLine (h : AlikeMachines p m n) : Agree p Same m n (readLine.run m) (readLine.run n) :=
  (agree_withConsole h isBlind_flush).bind fun h _ _ _ => agree_withConsole h isBlind_readLine

theorem agree_undefined (h : AlikeMachines p m n) {R : Store → Store → α → β → Prop} {a b : Symbol}
    (hab : SameText m.store n.store a b) :
    Agree p R m n ((undefined a : Exec α).run m) ((undefined b : Exec β).run n) := by
  refine (agree_orStuck_eq h _ (text?_eq hab)).bind fun h _ _ htext => ?_
  obtain rfl := htext
  exact agree_fail h _

/-! ### Calls -/

theorem agree_callFunction (h : AlikeMachines p m n) {f g : Function} (hfg : p.AlikeFunctions m.store n.store f g)
    (count : UInt8) : Agree p Any m n ((callFunction f count).run m) ((callFunction g count).run n) := by
  have hdepth : m.frames.length = n.frames.length := h.frames.length_eq
  have hsize := h.stack.size_eq
  have hmax : m.config.maxFrames = n.config.maxFrames := congrArg Config.maxFrames h.config
  rw [callFunction, callFunction, hfg.arity]
  by_cases harity : count ≠ g.arity
  · rw [if_pos harity, if_pos harity]
    exact .error h
  · rw [if_neg harity, if_neg harity]
    simp only [run_get_bind, hdepth, hmax]
    split
    · exact .error h
    · simp only [run_get_bind, hsize]
      split
      · exact .error h
      · refine .changed (h.with_frames (.cons ⟨hfg, rfl, ?_⟩ h.frames)) rfl rfl
        rw [hsize]

/-- What a host function gives takes the place of what it gives on the other machine. -/
theorem agree_callNative (h : AlikeMachines p m n) {f : Native} (hf : IsUniform f.call) (count : UInt8) :
    Agree p Any m n ((callNative f count).run m) ((callNative f count).run n) := by
  have hsize := h.stack.size_eq
  rw [callNative]
  by_cases harity : count ≠ f.arity
  · rw [if_pos harity]
    exact .error h
  · rw [if_neg harity]
    simp only [run_get_bind, hsize]
    split
    · exact .error h
    · simp only [run_get_bind]
      refine (agree_truncate h _).bind fun h' hm hn _ => ?_
      exact agree_push h' ((hf p _ _ _ _ (h.stack.extract _ _).toList).mono hm hn)

theorem agree_callBelow (h : AlikeMachines p m n) (count : UInt8) :
    Agree p Any m n ((callBelow count).run m) ((callBelow count).run n) :=
  (agree_peek h _).bind fun {v w m n} h _ _ hv => by
    cases hv with
    | @function f g hfg =>
      exact (agree_orStuck h _ (h.store.functions hfg)).bind fun h _ _ hfg =>
        agree_callFunction h hfg count
    | native r =>
      change Agree p Any m n ((orStuck _ (m.store.native? r) >>= _).run m) ((orStuck _ (n.store.native? r) >>= _).run n)
      rw [Store.native?, Store.native?, ← h.store.natives]
      cases hr : m.store.natives[r.index]? with
      | none => exact .error h
      | some f => exact agree_callNative h (h.uniform f (Array.mem_of_getElem? hr)) count
    | _ => exact agree_fail h _

theorem agree_returnTop (h : AlikeMachines p m n) : Agree p Any m n (returnTop.run m) (returnTop.run n) :=
  (agree_pop h).bind fun {v w m n} h _ _ hv => by
    have hframes := h.frames
    simp only [run_get_bind]
    generalize m.frames = fs at hframes ⊢
    generalize n.frames = gs at hframes ⊢
    cases hframes with
    | nil => exact .error h
    | @cons f g fs gs hfg hrest =>
      have h' := h.with_frames hrest
      have hempty : fs.isEmpty = gs.isEmpty := by cases hrest <;> rfl
      refine Agree.bind (R := Any) (.changed h' rfl rfl) fun h hm hn _ => ?_
      rw [hempty, hfg.base]
      split
      · exact (agree_pop h).bind fun h _ _ _ => .error h
      · exact (agree_truncate h _).bind fun h hm' hn' _ => agree_push h (hv.mono (hm.trans hm') (hn.trans hn'))

/-! ### Steps -/

theorem agree_compareNumbers (h : AlikeMachines p m n) (f : Double → Double → Bool) :
    Agree p Any m n ((combineNumbers fun x y => .bool (f x y)).run m)
      ((combineNumbers fun x y => .bool (f x y)).run n) :=
  agree_combineNumbers h fun _ _ _ _ => .bool _

theorem agree_calculate (h : AlikeMachines p m n) (f : Double → Double → Double) :
    Agree p Any m n ((combineNumbers fun x y => .number (f x y)).run m)
      ((combineNumbers fun x y => .number (f x y)).run n) :=
  agree_combineNumbers h fun _ _ _ _ => .number _

theorem agree_getGlobal (h : AlikeMachines p m n) :
    Agree p Any m n ((execute .getGlobal).run m) ((execute .getGlobal).run n) :=
  (agree_readName h).bind fun {a b m n} h _ _ hab => by
    have hvalue := h.global?_rel hab
    simp only [run_get_bind]
    generalize m.globals[a]? = x at hvalue ⊢
    generalize n.globals[b]? = y at hvalue ⊢
    cases hvalue with
    | some hvw => exact agree_push h hvw
    | none => exact agree_undefined h hab

theorem agree_setGlobal (h : AlikeMachines p m n) :
    Agree p Any m n ((execute .setGlobal).run m) ((execute .setGlobal).run n) :=
  (agree_readName h).bind fun h _ _ hab => (agree_peek h 0).bind fun {v w m n} h hm hn hvw => by
    have hab := hab.mono hm hn
    have hsome := AlikeArrays.isSome_eq (h.global?_rel hab)
    simp only [run_get_bind, Std.TreeMap.contains_eq_isSome_getElem?, hsome]
    split
    · exact .changed (h.insert hab hvw) rfl rfl
    · exact agree_undefined h hab

theorem agree_jumpIf (h : AlikeMachines p m n) {f : Nat → Bool → Exec Unit}
    (hf : ∀ {m n} distance falsey, AlikeMachines p m n →
      Agree p Any m n ((f distance falsey).run m) ((f distance falsey).run n)) :
    Agree p Any m n ((do let distance ← readPair; f distance (← peek 0).isFalsey : Exec Unit).run m)
      ((do let distance ← readPair; f distance (← peek 0).isFalsey : Exec Unit).run n) :=
  (agree_readPair h).bind fun h _ _ hdistance => (agree_peek h 0).bind fun h _ _ hv => by
    obtain rfl := hdistance
    rw [hv.isFalsey_eq]
    exact hf _ _ h

theorem agree_execute (h : AlikeMachines p m n) (op : Opcode) :
    Agree p Any m n ((execute op).run m) ((execute op).run n) := by
  cases op with
  | constant => exact (agree_readConstant h).bind fun h _ _ hvw => agree_push h hvw
  | null => exact agree_push h .null
  | true => exact agree_push h (.bool _)
  | false => exact agree_push h (.bool _)
  | pop => exact (agree_pop h).bind fun h _ _ _ => .pure h trivial
  | getLocal =>
    refine (agree_readByte h).bind fun h _ _ hslot => ?_
    obtain rfl := hslot
    exact (agree_getSlot h _).bind fun h _ _ hvw => agree_push h hvw
  | setLocal =>
    refine (agree_readByte h).bind fun h _ _ hslot => ?_
    obtain rfl := hslot
    exact (agree_peek h 0).bind fun h _ _ hvw => agree_setSlot h _ hvw
  | getGlobal => exact agree_getGlobal h
  | setGlobal => exact agree_setGlobal h
  | defineGlobal =>
    refine (agree_readName h).bind fun h _ _ hab => (agree_pop h).bind fun h hm hn hvw => ?_
    exact .changed (h.insert (hab.mono hm hn) hvw) rfl rfl
  | equal => exact agree_compareTop h true
  | notEqual => exact agree_compareTop h false
  | greater => exact agree_compareNumbers h fun x y => y.less x
  | greaterEqual => exact agree_compareNumbers h fun x y => y.lessEqual x
  | less => exact agree_compareNumbers h Double.less
  | lessEqual => exact agree_compareNumbers h Double.lessEqual
  | add => exact agree_addTop h
  | subtract => exact agree_calculate h Double.sub
  | multiply => exact agree_calculate h Double.mul
  | divide => exact agree_calculate h Double.div
  | not =>
    refine (agree_peek h 0).bind fun h _ _ hvw => ?_
    rw [hvw.isFalsey_eq]
    exact agree_setTop h (.bool _)
  | negate =>
    refine (agree_peek h 0).bind fun h _ _ hvw => ?_
    cases hvw with
    | number x => exact agree_setTop h (.number _)
    | _ => exact agree_fail h _
  | print => exact agree_printTop h
  | readString =>
    refine (agree_readLine h).bind fun h _ _ hline => ?_
    obtain rfl := hline
    exact (agree_intern h _).bind fun h _ _ hab => agree_push h (.string hab)
  | readNumber =>
    refine (agree_readLine h).bind fun h _ _ hline => ?_
    obtain rfl := hline
    exact agree_push h (.number _)
  | readChar =>
    refine (agree_readLine h).bind fun h _ _ hline => ?_
    obtain rfl := hline
    exact agree_push h (.char _)
  | jump =>
    refine (agree_readPair h).bind fun h _ _ hdistance => ?_
    obtain rfl := hdistance
    exact agree_jumpTo h _
  | jumpIfFalse =>
    refine agree_jumpIf (f := fun distance falsey => if falsey then jumpForward distance else pure ()) h ?_
    intro m n distance falsey h
    split
    · exact agree_jumpTo h _
    · exact .pure h trivial
  | jumpIfTrue =>
    refine agree_jumpIf (f := fun distance falsey => if falsey then pure () else jumpForward distance) h ?_
    intro m n distance falsey h
    split
    · exact .pure h trivial
    · exact agree_jumpTo h _
  | loop =>
    refine (agree_readPair h).bind fun h _ _ hdistance => ?_
    obtain rfl := hdistance
    exact agree_jumpTo h _
  | call =>
    refine (agree_readByte h).bind fun h _ _ hcount => ?_
    obtain rfl := hcount
    exact agree_callBelow h _
  | out => exact agree_returnTop h

theorem agree_step (h : AlikeMachines p m n) : Agree p Any m n (step.run m) (step.run n) := by
  refine (agree_readByte h).bind fun h _ _ hbyte => ?_
  obtain rfl := hbyte
  split
  · exact agree_execute h _
  · exact agree_fail h _

theorem stackText?_eq (h : AlikeMachines p m n) : m.stackText? = n.stackText? := by
  have hitems : m.stack.toList.mapM m.store.escaped? = n.stack.toList.mapM n.store.escaped? := by
    have hlist := h.stack.toList
    generalize m.stack.toList = vs at hlist ⊢
    generalize n.stack.toList = ws at hlist ⊢
    induction hlist with
    | nil => rfl
    | cons hvw _ ih => rw [List.mapM_cons, List.mapM_cons, h.store.escaped?_eq hvw, ih]
  rw [stackText?, stackText?, hitems]

theorem traceText?_eq (hp : p.lines) (h : AlikeMachines p m n) : m.traceText? = n.traceText? := by
  have hframes := h.frames
  unfold traceText?
  rw [stackText?_eq h]
  generalize m.frames = fs at hframes
  generalize n.frames = gs at hframes
  cases hframes with
  | nil => rfl
  | cons hfg _ =>
    simp only [List.head?_cons, Option.bind_eq_bind, Option.bind_some, hfg.ip,
      hfg.function.bytecode.instructionText?_eq hp h.store]

theorem agree_observe (hp : p.lines) (h : AlikeMachines p m n) : Agree p Any m n (observe.run m) (observe.run n) := by
  have htrace : m.config.traceExecution = n.config.traceExecution := congrArg Config.traceExecution h.config
  simp only [observe, run_get_bind, htrace]
  split
  · refine (agree_orStuck_eq h _ (traceText?_eq hp h)).bind fun h _ _ htext => ?_
    obtain rfl := htext
    exact .changed (h.with_console h.console) rfl rfl
  · exact .pure h trivial

theorem agree_cycle (hp : p.lines) (h : AlikeMachines p m n) : Agree p Any m n (cycle.run m) (cycle.run n) :=
  (agree_observe hp h).bind fun h _ _ _ => agree_step h

end StackScript.Machine
