import StackScript.Proofs.Semantics.Stage

/-! Single instructions and the parts of walks that they belong to. -/
namespace StackScript
open Machine
variable {k : Spot} {names : List String} {ip place : Nat} {m : Machine} {s : Scene} {temps : List Datum} {v : Value} {d e : Datum}
variable {α β : Type}

/-- An instruction leaves one value, which is that of a part of a walk, above the others. -/
def Leaves (k : Spot) (names : List String) (ip : Nat) (temps : List Datum) (m : Machine) (d : Datum) (s : Scene) : Prop :=
  Scenery k names ip m s (d :: temps)

theorem Walk.run_get_bind (f : Scene → Walk α) (s : Scene) : (get >>= f).run s = (f s).run s := rfl

theorem Spot.Has.fits {i : Instr} {is : List Instr} (h : k.Has ip (i :: is)) : i.Fits := by
  obtain ⟨pre, post, hcode, -⟩ := h
  exact k.consists.fits i (by simp [hcode])

theorem matches_fail (h : Scenery k names ip m s temps) {post : β → Machine → α → Scene → Prop} {c : Surroundings}
    (hc : c.active = k.active) (e : RuntimeError) :
    Matches k.limits c.place post ((Machine.fail e : Exec β).run m) ((Walk.fail c e : Walk α).run s) := by
  change Matches k.limits c.place post (.error (.failed e) m) (.error (.failed e c.place c.active) s)
  rw [hc]
  exact .fails h.ended

theorem matches_push (h : Scenery k names ip m s temps) (hv : Denotes m.store v d) :
    Matches k.limits place (fun _ => Leaves k names ip temps) ((push v).run m)
      ((Walk.produce (k.around place temps) d).run s) := by
  have hfull : m.config.stackSize ≤ m.stack.size ↔
      (k.around place temps).space ≤ (k.around place temps).held + s.locals.length := by
    rw [h.size, Config.stackSize, h.mirrors.frames]
    rfl
  change Matches _ _ _ _ (if _ then _ else _)
  by_cases hsize : m.config.stackSize ≤ m.stack.size
  · rw [run_push_full hsize, if_pos (hfull.1 hsize)]
    exact .fails h.ended
  · rw [run_push (Nat.lt_of_not_le hsize), if_neg fun hs => hsize (hfull.2 hs)]
    exact .works (h.with_stack (.push h.stack hv))

/-! ### Variables -/

/-- Variables lie under the values that are still needed. -/
theorem Scenery.split (h : Scenery k names ip m s temps) :
    ∃ mid, Holds m.store k.below (s.locals.map Prod.snd) mid ∧ Holds m.store mid temps m.stack ∧
      mid.size = k.below.size + s.locals.length := by
  obtain ⟨mid, hlocals, htemps⟩ := h.stack.split
  exact ⟨mid, hlocals, htemps, by rw [hlocals.size, List.length_map]⟩

theorem matches_undefined (h : Scenery k names ip m s temps) {post : β → Machine → α → Scene → Prop} {a : Symbol}
    {x : String} (ha : k.store.text? a = some x) :
    Matches k.limits place post ((undefined a : Exec β).run m)
      ((Walk.fail (k.around place temps) (.undefinedVariable x) : Walk α).run s) := by
  rw [run_undefined (h.store.text ha)]
  exact .fails h.ended

/-- Reading a variable. -/
theorem matches_get (h : Scenery k names ip m s temps) {x : String} {p : Home} (hx : k.pool.Finds names x p)
    (hfits : p.get.Fits) :
    Matches k.limits place (fun _ => Leaves k names ip temps) (p.get.perform.run m)
      ((Walk.lookup (k.around place temps) x).run s) := by
  rw [Walk.lookup, Walk.run_get_bind]
  cases p with
  | slot i =>
    obtain ⟨mid, hlocals, htemps, hsize⟩ := h.split
    have hslot : slot? x (s.locals.map Prod.fst) = some i := by
      rw [h.names]
      exact hx
    obtain ⟨v, d, hv, hd, hdenotes⟩ := hlocals.slot hslot
    have hlt := slot?_lt hslot
    rw [List.length_map] at hlt
    have hbyte : i.toUInt8.toNat = i := UInt8.toNat_ofNat_of_lt' hfits
    have hread : m.stack[k.below.size + i.toUInt8.toNat]? = some v := by
      rw [hbyte, htemps.getElem?_of_lt (by omega), hv]
    rw [Scene.find?, hd, Option.some_or]
    change Matches _ _ _ ((getSlot i.toUInt8 >>= push).run m) _
    rw [run_bind_ok (run_getSlot h.frames hread)]
    exact matches_push h hdenotes
  | global i =>
    obtain ⟨hnew, a, ha, htext⟩ := hx
    have hlookup : s.locals.lookup x = none := lookup_eq_none (by rwa [h.names])
    have hglobal := h.mirrors.globals x
    rw [global?_of_text (h.store.text htext)] at hglobal
    rw [Scene.find?, hlookup, Option.none_or]
    change Matches _ _ _ ((nameAt i >>= _).run m) _
    rw [run_bind_ok (run_nameAt h.frames ha), Machine.run_get_bind]
    generalize m.globals[a]? = o at hglobal
    generalize s.globals x = o' at hglobal
    cases hglobal with
    | some hv => exact matches_push h hv
    | none => exact matches_undefined h htext

/-- Assigning to a variable. -/
theorem matches_set (h : Scenery k names ip m s (d :: temps)) {x : String} {p : Home} (hx : k.pool.Finds names x p)
    (hfits : p.set.Fits) :
    Matches k.limits place (fun _ => Leaves k names ip temps) (p.set.perform.run m)
      ((Walk.assign (k.around place temps) x d).run s) := by
  obtain ⟨rest, v, hstack, hv, hrest⟩ := h.stack.pop
  rw [Walk.assign, Walk.run_get_bind]
  cases p with
  | slot i =>
    obtain ⟨mid, hlocals, htemps, hsize⟩ := h.split
    have hslot : slot? x (s.locals.map Prod.fst) = some i := by
      rw [h.names]
      exact hx
    have hlt := slot?_lt hslot
    rw [List.length_map] at hlt
    have hbyte : i.toUInt8.toNat = i := UInt8.toNat_ofNat_of_lt' hfits
    have hplace : k.below.size + i.toUInt8.toNat < m.stack.size := by
      rw [hbyte, htemps.size]
      omega
    obtain ⟨locals, hassign, hnames, hholds⟩ := hlocals.set_slot hslot hv
    have hset := htemps.set_below (i := k.below.size + i) (by omega) v
    change Matches _ _ _ ((peek 0 >>= setSlot i.toUInt8).run m) _
    rw [run_bind_ok (run_peek_zero hstack), run_setSlot h.frames hplace, hbyte, Scene.assign?, hassign]
    refine .works ?_
    exact ⟨h.mirrors.with_stack _, h.frames, h.active, hholds.join hset, h.store, hnames.trans h.names⟩
  | global i =>
    obtain ⟨hnew, a, ha, htext⟩ := hx
    have hnone : Scene.assignLocal? x d s.locals = none := assignLocal?_eq_none (by rwa [h.names]) d
    have hglobal := h.mirrors.globals x
    rw [global?_of_text (h.store.text htext)] at hglobal
    have hknown : m.globals.contains a = (s.globals x).isSome := by
      rw [Std.TreeMap.contains_eq_isSome_getElem?]
      exact AlikeArrays.isSome_eq hglobal
    rw [Scene.assign?, hnone]
    change Matches _ _ _ ((nameAt i >>= _).run m) _
    rw [run_bind_ok (run_nameAt h.frames ha), run_bind_ok (run_peek_zero hstack), Machine.run_get_bind, hknown]
    by_cases hsome : (s.globals x).isSome
    · rw [if_pos hsome, if_pos hsome]
      refine .works ?_
      exact ⟨h.mirrors.define (h.store.text htext) hv, h.frames, h.active, h.stack, h.store, h.names⟩
    · rw [if_neg hsome, if_neg hsome]
      exact matches_undefined h htext

/-- The value of a new global variable. -/
theorem matches_define (h : Scenery k names ip m s (d :: temps)) {x : String} {i : Nat} (hx : k.pool.IsName i x) :
    Matches k.limits place (fun _ m' (_ : Unit) s' => Scenery k names ip m' s' temps)
      ((⟨.defineGlobal, i⟩ : Instr).perform.run m) ((Walk.declare false x d).run s) := by
  obtain ⟨a, ha, htext⟩ := hx
  obtain ⟨rest, v, hstack, hv, hrest⟩ := h.stack.pop
  change Matches _ _ _ ((nameAt i >>= _).run m) _
  rw [run_bind_ok (run_nameAt h.frames ha), run_bind_ok (run_pop hstack)]
  refine .works ?_
  have hpop := h.with_stack hrest
  exact ⟨hpop.mirrors.define (h.store.text htext) hv, hpop.frames, hpop.active, hpop.stack, hpop.store, hpop.names⟩

/-! ### Operators -/

theorem Scenery.operands (h : Scenery k names ip m s (e :: d :: temps)) :
    ∃ rest v w, m.stack = (rest.push v).push w ∧ Denotes m.store v d ∧ Denotes m.store w e ∧
      Holds m.store k.below (temps ++ s.locals.map Prod.snd) rest := by
  obtain ⟨below, w, hstack, hw, hbelow⟩ := h.stack.pop
  obtain ⟨rest, v, rfl, hv, hrest⟩ := hbelow.pop
  exact ⟨rest, v, w, hstack, hv, hw, hrest⟩

theorem matches_combine (h : Scenery k names ip m s (e :: d :: temps)) {g : Double → Double → Value}
    {f : Double → Double → Datum} (hg : ∀ x y, Denotes m.store (g x y) (f x y)) :
    Matches k.limits place (fun _ => Leaves k names ip temps) ((combineNumbers g).run m)
      ((Walk.orFail (k.around place temps) (Datum.combine f d e)).run s) := by
  obtain ⟨rest, v, w, hstack, hv, hw, hrest⟩ := h.operands
  by_cases hn : ∃ x y, v = .number x ∧ w = .number y
  · obtain ⟨x, y, rfl, rfl⟩ := hn
    cases hv
    cases hw
    rw [run_combineNumbers hstack]
    exact .works (h.with_stack (.push hrest (hg x y)))
  · have hfail : Datum.combine f d e = .error .expectedTwoNumbers := by
      cases hv with
      | number x =>
        cases hw with
        | number y => exact absurd ⟨x, y, rfl, rfl⟩ hn
        | _ => rfl
      | _ => rfl
    rw [run_combineNumbers_fail hstack hn, hfail]
    exact .fails h.ended

theorem matches_compare (h : Scenery k names ip m s (e :: d :: temps)) (equal : Bool) :
    Matches k.limits place (fun _ => Leaves k names ip temps) ((compareTop equal).run m)
      ((Walk.orFail (k.around place temps) (.ok (.bool (d.equals e == equal)))).run s) := by
  obtain ⟨rest, v, w, hstack, hv, hw, hrest⟩ := h.operands
  rw [run_compareTop hstack, hv.equals_eq hw]
  exact .works (h.with_stack (.push hrest (.bool _)))

theorem matches_add (h : Scenery k names ip m s (e :: d :: temps)) (hm : Ready m) :
    Matches k.limits place (fun _ => Leaves k names ip temps) (addTop.run m)
      ((Walk.orFail (k.around place temps) (d.add e)).run s) := by
  obtain ⟨rest, v, w, hstack, hv, hw, hrest⟩ := h.operands
  by_cases hn : ∃ x y, v = .number x ∧ w = .number y
  · obtain ⟨x, y, rfl, rfl⟩ := hn
    cases hv
    cases hw
    rw [run_addTop_numbers hstack]
    exact .works (h.with_stack (.push hrest (.number _)))
  · have hadd : d.add e = if d.isTextual ∧ e.isTextual then .ok (.string (Utf8.decode (d.bytes ++ e.bytes)))
        else .error .invalidAddOperands := by
      cases hv with
      | number x =>
        cases hw with
        | number y => exact absurd ⟨x, y, rfl, rfl⟩ hn
        | _ => rfl
      | _ => rfl
    rw [hadd]
    by_cases ht : v.isTextual ∧ w.isTextual
    · rw [run_addTop_texts hstack ht hv.bytes?_eq hw.bytes?_eq, if_pos (by rwa [← hv.isTextual_eq, ← hw.isTextual_eq])]
      have hintern := h.intern hm.sound (Utf8.decode (d.bytes ++ e.bytes))
      have hs := Store.Extends.of_intern m.store (Utf8.decode (d.bytes ++ e.bytes))
      exact .works (hintern.with_stack (.push (hrest.mono hs) (.intern _ _)))
    · rw [run_addTop_fail hstack hn ht, if_neg (by rwa [← hv.isTextual_eq, ← hw.isTextual_eq])]
      exact .fails h.ended

theorem matches_binary (op : Binary) (h : Scenery k names ip m s (e :: d :: temps)) (hm : Ready m) :
    Matches k.limits place (fun _ => Leaves k names ip temps) ((⟨op.opcode, 0⟩ : Instr).perform.run m)
      ((Walk.orFail (k.around place temps) (op.apply d e)).run s) := by
  have hequals : ∀ b : Bool, (b == true) = b ∧ (b == false) = !b := by decide
  cases op with
  | add => exact matches_add h hm
  | subtract => exact matches_combine h fun x y => .number _
  | multiply => exact matches_combine h fun x y => .number _
  | divide => exact matches_combine h fun x y => .number _
  | equal =>
    have hcompare : Matches _ place _ _ _ := matches_compare h true
    rwa [(hequals _).1] at hcompare
  | notEqual =>
    have hcompare : Matches _ place _ _ _ := matches_compare h false
    rwa [(hequals _).2] at hcompare
  | greater => exact matches_combine h fun x y => .bool _
  | greaterEqual => exact matches_combine h fun x y => .bool _
  | less => exact matches_combine h fun x y => .bool _
  | lessEqual => exact matches_combine h fun x y => .bool _

theorem matches_unary (op : Unary) (h : Scenery k names ip m s (d :: temps)) :
    Matches k.limits place (fun _ => Leaves k names ip temps) ((⟨op.opcode, 0⟩ : Instr).perform.run m)
      ((Walk.orFail (k.around place temps) (op.apply d)).run s) := by
  obtain ⟨rest, v, hstack, hv, hrest⟩ := h.stack.pop
  cases op with
  | negate =>
    change Matches _ _ _ ((peek 0 >>= _).run m) _
    rw [run_bind_ok (run_peek_zero hstack)]
    cases hv with
    | number x =>
      change Matches _ _ _ ((setTop (.number x.neg)).run m) _
      rw [run_setTop hstack]
      exact .works (h.with_stack (.push hrest (.number _)))
    | _ => exact matches_fail h (c := k.around place temps) rfl _
  | not =>
    change Matches _ _ _ ((peek 0 >>= fun v => setTop (.bool v.isFalsey)).run m) _
    rw [run_bind_ok (run_peek_zero hstack), run_setTop hstack, hv.isFalsey_eq]
    exact .works (h.with_stack (.push hrest (.bool _)))

/-! ### The console -/

theorem matches_withConsole (h : Scenery k names ip m s temps) {f : Console → Except ConsoleError α × Console}
    (hf : IsBlind f) {c : Surroundings} (hc : c.active = k.active) (hm : Ready m) :
    Matches k.limits c.place (fun a m' b s' => a = b ∧ Scenery k names ip m' s' temps ∧ Ready m')
      ((Machine.withConsole f).run m) ((Walk.withConsole c f).run s) := by
  obtain ⟨hresult, hconsole⟩ := hf.eq h.mirrors.console
  unfold Machine.withConsole Walk.withConsole EStateM.run
  generalize hx : f m.console = x at hresult hconsole
  generalize hy : f s.console = y at hresult hconsole
  obtain ⟨x, b⟩ := x
  obtain ⟨y, b'⟩ := y
  obtain rfl : x = y := hresult
  dsimp only
  rw [hx, hy]
  have hafter := h.with_console hconsole
  cases x with
  | ok a => exact .works ⟨rfl, hafter, hm.with_console b⟩
  | error e =>
    dsimp only
    rw [hc]
    exact .fails hafter.ended

theorem matches_print (h : Scenery k names ip m s (d :: temps)) (hm : Ready m) {c : Surroundings}
    (hc : c.active = k.active) :
    Matches k.limits c.place (fun _ m' (_ : Unit) s' => Scenery k names ip m' s' temps)
      ((⟨.print, 0⟩ : Instr).perform.run m)
      ((Walk.print c d).run s) := by
  obtain ⟨rest, v, hstack, hv, hrest⟩ := h.stack.pop
  have hready : Ready { m with stack := rest } := by
    have hpop := works_pop hm.sound hstack (Nat.zero_le _)
    exact ⟨hpop.sound, hpop.room hm.room⟩
  change Matches _ _ _ (printTop.run m) _
  rw [run_printTop hstack hv.bytes?_eq]
  exact (matches_withConsole (h.with_stack hrest) (isBlind_write _) hc hready).mono fun _ _ _ _ h => h.2.1

theorem matches_readLine (h : Scenery k names ip m s temps) (hm : Ready m) {c : Surroundings}
    (hc : c.active = k.active) :
    Matches k.limits c.place (fun a m' b s' => a = b ∧ Scenery k names ip m' s' temps ∧ Ready m')
      (Machine.readLine.run m)
      ((Walk.readLine c).run s) :=
  (matches_withConsole h isBlind_flush hc hm).bind fun h => matches_withConsole h.2.1 isBlind_readLine hc h.2.2

/-- Reading a line and making a value of it. -/
theorem matches_read (form : InputForm) (h : Scenery k names ip m s temps) (hm : Ready m) :
    Matches k.limits place (fun _ => Leaves k names ip temps) ((⟨form.opcode, 0⟩ : Instr).perform.run m)
      ((Walk.read (k.around place temps) form).run s) := by
  have hread := matches_readLine h hm (c := k.around place temps) rfl
  cases form with
  | string =>
    refine hread.bind fun {line m' line' s'} h => ?_
    obtain ⟨rfl, h, hm⟩ := h
    rw [run_bind_ok (run_intern _ _)]
    exact matches_push (h.intern hm.sound _) (.intern _ _)
  | number =>
    refine hread.bind fun {line m' line' s'} h => ?_
    obtain ⟨rfl, h, hm⟩ := h
    exact matches_push h (.number _)
  | char =>
    refine hread.bind fun {line m' line' s'} h => ?_
    obtain ⟨rfl, h, hm⟩ := h
    exact matches_push h (.char _)

end StackScript
