import StackScript.Proofs.Code.Histories

/-! The numbers of functions. Functions are numbered in the order in which they end, so a function is found under its number
among the histories of a program. -/
namespace StackScript

namespace Event

mutual

/-- How many functions are compiled. -/
def functionCount : Event → Nat
  | function _ events => allFunctionCount events + 1
  | _ => 0

def allFunctionCount : List Event → Nat
  | [] => 0
  | e :: es => e.functionCount + allFunctionCount es

end

mutual

/-- The functions that are compiled are numbered from `first` on, in the order in which they end. -/
def Numbered (first : Nat) : Event → Prop
  | function r events => AllNumbered first events ∧ r = ⟨first + allFunctionCount events⟩
  | _ => True

def AllNumbered (first : Nat) : List Event → Prop
  | [] => True
  | e :: es => e.Numbered first ∧ AllNumbered (first + e.functionCount) es

end

mutual

theorem length_histories (start : Nat) (e : Event) : (e.histories start).length = e.functionCount := by
  cases e with
  | function r events => rw [histories_function, List.length_append, length_allHistories start events]; rfl
  | _ => rfl

theorem length_allHistories (start : Nat) (es : List Event) : (allHistories start es).length = allFunctionCount es := by
  cases es with
  | nil => rfl
  | cons e es =>
    rw [allHistories_cons, List.length_append, length_histories start e, length_allHistories _ es]
    rfl

end

@[simp] theorem allFunctionCount_append (es fs : List Event) :
    allFunctionCount (es ++ fs) = allFunctionCount es + allFunctionCount fs := by
  induction es with
  | nil => exact (Nat.zero_add _).symm
  | cons e es ih => rw [List.cons_append, allFunctionCount, allFunctionCount, ih, Nat.add_assoc]

theorem allNumbered_append {first : Nat} {es fs : List Event} :
    AllNumbered first (es ++ fs) ↔ AllNumbered first es ∧ AllNumbered (first + allFunctionCount es) fs := by
  induction es generalizing first with
  | nil => exact (iff_of_eq (true_and _)).symm
  | cons e es ih => rw [List.cons_append, AllNumbered, AllNumbered, ih, allFunctionCount, Nat.add_assoc, and_assoc]

/-- A function is where its number says, among all that are compiled. -/
theorem getElem?_of_allNumbered {first start : Nat} {pre post es : List Event} {r : FunctionRef}
    (hn : AllNumbered first (pre ++ .function r es :: post)) :
    ∃ i, r = ⟨first + i⟩ ∧ (allHistories start (pre ++ .function r es :: post))[i]? =
      some ⟨start + (allWords pre).length, es⟩ := by
  obtain ⟨-, ⟨-, hr⟩, -⟩ := allNumbered_append.1 hn
  refine ⟨allFunctionCount pre + allFunctionCount es, by rw [hr, Nat.add_assoc], ?_⟩
  rw [allHistories_append, List.getElem?_append_right (by rw [length_allHistories]; omega), length_allHistories,
    Nat.add_sub_cancel_left, allHistories_cons, histories_function, List.append_assoc,
    List.getElem?_append_right (Nat.le_of_eq (length_allHistories _ _)), length_allHistories, Nat.sub_self]
  rfl

mutual

theorem exists_of_mem_histories {first start : Nat} {h : History} {pre post es : List Event} {r : FunctionRef}
    (e : Event) (hn : e.Numbered first) (hh : h ∈ e.histories start)
    (hes : h.events = pre ++ .function r es :: post) :
    ∃ i, r = ⟨first + i⟩ ∧ (e.histories start)[i]? = some ⟨h.start + (allWords pre).length, es⟩ := by
  cases e with
  | function r' events =>
    obtain ⟨hn, -⟩ := hn
    rw [histories_function] at hh ⊢
    obtain ⟨i, hr, hi⟩ : ∃ i, r = ⟨first + i⟩ ∧
        (allHistories start events)[i]? = some ⟨h.start + (allWords pre).length, es⟩ := by
      rw [List.mem_append, List.mem_singleton] at hh
      obtain hh | rfl := hh
      · exact exists_of_mem_allHistories events hn hh hes
      · obtain rfl : events = _ := hes
        exact getElem?_of_allNumbered hn
    exact ⟨i, hr, by rw [List.getElem?_append_left (List.getElem?_eq_some_iff.1 hi).1, hi]⟩
  | _ => cases hh

theorem exists_of_mem_allHistories {first start : Nat} {h : History} {pre post es : List Event} {r : FunctionRef}
    (events : List Event) (hn : AllNumbered first events) (hh : h ∈ allHistories start events)
    (hes : h.events = pre ++ .function r es :: post) :
    ∃ i, r = ⟨first + i⟩ ∧ (allHistories start events)[i]? = some ⟨h.start + (allWords pre).length, es⟩ := by
  cases events with
  | nil => cases hh
  | cons e events =>
    obtain ⟨hn, hns⟩ := hn
    rw [allHistories_cons] at hh ⊢
    obtain hh | hh := List.mem_append.1 hh
    · obtain ⟨i, hr, hi⟩ := exists_of_mem_histories e hn hh hes
      exact ⟨i, hr, by rw [List.getElem?_append_left (List.getElem?_eq_some_iff.1 hi).1, hi]⟩
    · obtain ⟨i, hr, hi⟩ := exists_of_mem_allHistories events hns hh hes
      refine ⟨e.functionCount + i, by rw [hr, Nat.add_assoc], ?_⟩
      rw [List.getElem?_append_right (by rw [length_histories]; omega), length_histories, Nat.add_sub_cancel_left, hi]

end

/-- Where no function is compiled. -/
theorem allFunctionCount_of_nil {es : List Event} (h : allHistories 0 es = []) : allFunctionCount es = 0 := by
  rw [← length_allHistories 0, h, List.length_nil]

theorem allNumbered_of_nil {es : List Event} (first : Nat) (h : allHistories 0 es = []) : AllNumbered first es := by
  induction es generalizing first with
  | nil => trivial
  | cons e es ih =>
    have hcount := allFunctionCount_of_nil h
    rw [allFunctionCount, Nat.add_eq_zero_iff] at hcount
    refine ⟨?_, ih _ (List.length_eq_zero_iff.1 (by rw [length_allHistories, hcount.2]))⟩
    cases e with
    | function r events => exact absurd hcount.1 (Nat.succ_ne_zero _)
    | _ => trivial

end Event

namespace Decl

attribute [local simp] Event.allFunctionCount Event.functionCount Event.AllNumbered Event.Numbered
  Event.allNumbered_append TokenKind.event Opcode.event

/-- No function is compiled, so none has a wrong number. -/
theorem numbered_of_nil {es : List Event} (first : Nat) (h : Event.allHistories 0 es = []) :
    Event.allFunctionCount es = 0 ∧ Event.AllNumbered first es :=
  ⟨Event.allFunctionCount_of_nil h, Event.allNumbered_of_nil first h⟩

@[simp] theorem functionCount_exprEvents (names : List String) (e : Expr) :
    Event.allFunctionCount (e.events names) = 0 :=
  Event.allFunctionCount_of_nil (Expr.histories_events 0 names e)

@[simp] theorem numbered_exprEvents (first : Nat) (names : List String) (e : Expr) :
    Event.AllNumbered first (e.events names) := Event.allNumbered_of_nil first (Expr.histories_events 0 names e)

@[simp] theorem functionCount_blockEvents (body : List Decl) (inner : List Event) :
    Event.allFunctionCount (blockEvents body inner) = Event.allFunctionCount inner := by
  have hpops := Event.allFunctionCount_of_nil (histories_pops 0 (listDeclared body).length)
  simpa [blockEvents] using hpops

@[simp] theorem numbered_blockEvents {first : Nat} {body : List Decl} {inner : List Event} :
    Event.AllNumbered first (blockEvents body inner) ↔ Event.AllNumbered first inner := by
  have hpops := fun n => Event.allNumbered_of_nil n (histories_pops 0 (listDeclared body).length)
  simp only [Opcode.event] at hpops
  simp [blockEvents, hpops]

@[simp] theorem functionCount_functionEvents (xs : List String) (inner : List Event) :
    Event.allFunctionCount (functionEvents xs inner) = Event.allFunctionCount inner := by
  simp [functionEvents, returnEvents, Event.allFunctionCount_of_nil (histories_reads 0 (nameWords xs))]

@[simp] theorem numbered_functionEvents {first : Nat} {xs : List String} {inner : List Event} :
    Event.AllNumbered first (functionEvents xs inner) ↔ Event.AllNumbered first inner := by
  simp [functionEvents, returnEvents, Event.allFunctionCount_of_nil (histories_reads 0 (nameWords xs)),
    Event.allNumbered_of_nil _ (histories_reads 0 (nameWords xs))]

mutual

theorem numbered_events (σ : Scope) (first : Nat) (d : Decl) :
    Event.allFunctionCount (d.events σ first) = d.functionCount ∧ Event.AllNumbered first (d.events σ first) := by
  cases d with
  | expression | print | read => exact numbered_of_nil first (by simp [Decl.events, setEvent])
  | if_ e ds | until_ e ds | block _ ds =>
    obtain ⟨hcount, hds⟩ := numbered_listEvents σ.enter first ds
    simp [Decl.events, Decl.functionCount, hcount, hds]
  | ifElse e ds es =>
    obtain ⟨hcount, hds⟩ := numbered_listEvents σ.enter first ds
    obtain ⟨hcounts, hes⟩ := numbered_listEvents σ.enter (first + listFunctionCount ds) es
    simp [Decl.events, Decl.functionCount, hcount, hds, hcounts, hes]
  | out value => cases value <;> exact numbered_of_nil first (by simp [Decl.events])
  | var x initial => cases initial <;> exact numbered_of_nil first (by simp [Decl.events])
  | fun_ x xs ds =>
    obtain ⟨hcount, hds⟩ := numbered_listEvents (.function xs) first ds
    have hname : Event.allHistories 0 (nameEvents σ x) = [] := histories_nameEvents 0 σ x
    have hsettle : Event.allHistories 0 (settleEvents σ.isLocal x) = [] := histories_settleEvents 0 σ.isLocal x
    simp [Decl.events, Decl.functionCount, hcount, hds, Event.allFunctionCount_of_nil hname,
      Event.allFunctionCount_of_nil hsettle, Event.allNumbered_of_nil _ hname, Event.allNumbered_of_nil _ hsettle]

theorem numbered_listEvents (σ : Scope) (first : Nat) (ds : List Decl) :
    Event.allFunctionCount (listEvents σ first ds) = listFunctionCount ds ∧
      Event.AllNumbered first (listEvents σ first ds) := by
  cases ds with
  | nil => simp [Decl.listEvents, Decl.listFunctionCount]
  | cons d ds =>
    obtain ⟨hcount, hd⟩ := numbered_events σ first d
    obtain ⟨hcounts, hds⟩ := numbered_listEvents (σ.after d) (first + d.functionCount) ds
    simp [Decl.listEvents, Decl.listFunctionCount, hcount, hcounts, hd, hds]

end

/-- The history of a function that is declared in another one is found under its number. -/
theorem getElem?_programHistories {first : Nat} {ds : List Decl} {h : History} {pre post es : List Event}
    {r : FunctionRef} (hh : h ∈ programHistories first ds) (hes : h.events = pre ++ .function r es :: post) :
    ∃ i, r = ⟨first + i⟩ ∧
      (programHistories first ds)[i]? = some ⟨h.start + (Event.allWords pre).length, es⟩ := by
  have hn : Event.AllNumbered first (programEvents first ds) := by
    simp [programEvents, returnEvents, (numbered_listEvents .script first ds).2]
  let whole : Event := .function ⟨first + Event.allFunctionCount (programEvents first ds)⟩ (programEvents first ds)
  have hwhole : whole.Numbered first := ⟨hn, rfl⟩
  have hall : h ∈ Event.histories 0 whole := hh
  exact Event.exists_of_mem_histories whole hwhole hall hes

end Decl

end StackScript
