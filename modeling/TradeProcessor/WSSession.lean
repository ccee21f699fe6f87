/-
  WSSession.lean --- `WSSession.cpp`: the message handler.

  `on_message` parses a payload and enqueues the elements of its `data` member one
  by one.  The result of the parser is not looked at: the loop runs over whatever
  the parser left in the root.  The loop condition and the loop body both
  subscript the root, so both can raise.
-/
import TradeProcessor.Json.Assign

set_option autoImplicit false

namespace TradeProcessor

open TradeProcessor.Json TradeProcessor.Library

/-! ## The loop -/

/-- `i < completeJsonData["data"].size()` and, where it holds, the element that the
body enqueues. -/
def messageStep (completeJsonData : Value) (i : Nat) :
    Except LogicError (Value × Option Value) := do
  let (completeJsonData, data) ← completeJsonData.subscript "data"
  if i < data.size then
    let (completeJsonData, item) ← completeJsonData.memberElement "data" i
    return (completeJsonData, some item)
  else
    return (completeJsonData, none)

/-- An array offers its elements. -/
theorem messageStep_array {root : Value} {elements : List Value} {i : Nat} {item : Value}
    (hsub : root.subscriptable = true) (hdata : root.member "data" = .arrayValue elements)
    (hi : elements[i]? = some item) :
    messageStep root i = .ok (root.withMember "data", some item) := by
  have hsub' : (root.withMember "data").subscriptable = true := by
    rwa [Value.subscriptable_withMember]
  have hlt : i < elements.length := (List.getElem?_eq_some_iff.mp hi).1
  have hmem : (root.withMember "data").withMember "data" = root.withMember "data" :=
    Value.withMember_of_hasMember (Value.hasMember_withMember_self hsub "data")
  have hset : (root.withMember "data").setMember "data" (.arrayValue elements) =
      root.withMember "data" := by
    rw [← hdata]
    exact Value.setMember_withMember hsub
  simp only [messageStep, Value.subscript_of_subscriptable hsub, bind, Except.bind, hdata,
    Value.size, if_pos hlt, Value.memberElement, Value.subscript_of_subscriptable hsub',
    Value.member_withMember, Value.element, hi, pure, Except.pure, hmem, hset]

/-- An object has elements to count but none to index. -/
theorem messageStep_object {root : Value} {members : List (String × Value)} {i : Nat}
    (hsub : root.subscriptable = true) (hdata : root.member "data" = .objectValue members)
    (hi : i < (root.member "data").size) : messageStep root i = .error .requiresArray := by
  have hsub' : (root.withMember "data").subscriptable = true := by
    rwa [Value.subscriptable_withMember]
  rw [hdata] at hi
  simp only [messageStep, Value.subscript_of_subscriptable hsub, bind, Except.bind, hdata,
    if_pos hi, Value.memberElement, Value.subscript_of_subscriptable hsub',
    Value.member_withMember, Value.element]

theorem messageStep_not_subscriptable {root : Value} (hsub : root.subscriptable = false)
    (i : Nat) : messageStep root i = .error .requiresObject := by
  simp [messageStep, Value.subscript_eq, hsub, bind, Except.bind]

theorem messageStep_end {root : Value} {i : Nat} (hsub : root.subscriptable = true)
    (hi : (root.member "data").size ≤ i) :
    messageStep root i = .ok (root.withMember "data", none) := by
  simp only [messageStep, Value.subscript_of_subscriptable hsub, bind, Except.bind,
    if_neg (not_lt.mpr hi), pure, Except.pure]

/-- The three outcomes of a step: an element of an array, the end of the loop, or an
exception. -/
theorem messageStep_cases (root : Value) (i : Nat) :
    (∃ elements item, root.subscriptable = true ∧ root.member "data" = .arrayValue elements ∧
      elements[i]? = some item ∧
      messageStep root i = .ok (root.withMember "data", some item)) ∨
    ((root.member "data").size ≤ i ∧
      messageStep root i = .ok (root.withMember "data", none)) ∨
    ∃ e, messageStep root i = .error e := by
  cases hsub : root.subscriptable with
  | false => exact .inr (.inr ⟨_, messageStep_not_subscriptable hsub i⟩)
  | true =>
      rcases lt_or_ge i (root.member "data").size with hlt | hge
      · cases hdata : root.member "data" with
        | arrayValue elements =>
            rw [hdata] at hlt
            have hi : elements[i]? = some elements[i] := List.getElem?_eq_getElem hlt
            exact .inl ⟨elements, _, rfl, rfl, hi, messageStep_array hsub hdata hi⟩
        | objectValue members => exact .inr (.inr ⟨_, messageStep_object hsub hdata hlt⟩)
        | _ =>
            rw [hdata] at hlt
            simp [Value.size] at hlt
      · exact .inr (.inl ⟨hge, messageStep_end hsub hge⟩)

/-- Only a root that can be subscripted offers anything, and only at indices of an
array. -/
theorem messageStep_eq_some {root root' : Value} {i : Nat} {item : Value}
    (h : messageStep root i = .ok (root', some item)) :
    root.subscriptable = true ∧ root' = root.withMember "data" ∧
      ∃ elements, root.member "data" = .arrayValue elements ∧ elements[i]? = some item := by
  rcases messageStep_cases root i with ⟨elements, found, hsub, hdata, hi, hstep⟩ | ⟨_, hstep⟩ |
    ⟨e, hstep⟩
  · rw [hstep] at h
    cases h
    exact ⟨hsub, rfl, elements, hdata, hi⟩
  · rw [hstep] at h
    cases h
  · rw [hstep] at h
    cases h

/-- The elements of a `data` array; there are none if `data` is anything else. -/
def dataOf (completeJsonData : Value) : List Value :=
  match completeJsonData.member "data" with
  | .arrayValue elements => elements
  | _ => []

@[simp] theorem dataOf_withMember (key : String) (root : Value) :
    dataOf (root.withMember key) = dataOf root := by
  simp [dataOf, Value.member_withMember]

theorem length_dataOf_le (root : Value) : (dataOf root).length ≤ (root.member "data").size := by
  unfold dataOf
  split
  · rename_i hdata
    rw [hdata]
    exact le_rfl
  · exact Nat.zero_le _

/-- When the loop ends, the elements are used up. -/
theorem messageStep_eq_none {root root' : Value} {i : Nat}
    (h : messageStep root i = .ok (root', none)) : (dataOf root).length ≤ i := by
  rcases messageStep_cases root i with ⟨_, _, _, _, _, hstep⟩ | ⟨hge, _⟩ | ⟨e, hstep⟩
  · rw [hstep] at h
    cases h
  · exact (length_dataOf_le root).trans hge
  · rw [hstep] at h
    cases h

/-- The loop of `on_message` from an index on; the state is the queue. -/
def enqueueFrom (completeJsonData : Value) (i : Nat) : Action LogicError (List Value) Unit :=
  match h : messageStep completeJsonData i with
  | .error e => throw e
  | .ok (_, none) => pure ()
  | .ok (completeJsonData', some item) => do
      modify (· ++ [item])
      enqueueFrom completeJsonData' (i + 1)
termination_by (completeJsonData.member "data").size - i
decreasing_by
  obtain ⟨_, hroot, elements, hdata, hi⟩ := messageStep_eq_some h
  have hlt : i < elements.length := (List.getElem?_eq_some_iff.mp hi).1
  rw [hroot, Value.member_withMember, hdata]
  simp only [Value.size]
  omega

/-- `WSSession::on_message`.  `Json::Reader::parse` is given: for a payload and the
root it is handed, its result and the root as it leaves it. -/
def onMessage (parse : String → Value → Bool × Value) (payload : String) :
    Action LogicError (List Value) Unit :=
  let (_parsed, completeJsonData) := parse payload .nullValue
  enqueueFrom completeJsonData 0

/-- The loop, one evaluation of its condition at a time. -/
theorem enqueueFrom_eq (root : Value) (i : Nat) :
    enqueueFrom root i =
      match messageStep root i with
      | .error e => throw e
      | .ok (_, none) => pure ()
      | .ok (root', some item) =>
          modify (· ++ [item]) >>= fun _ => enqueueFrom root' (i + 1) := by
  rw [enqueueFrom]
  split
  · rename_i e h
    rw [h]
  · rename_i root' h
    rw [h]
  · rename_i root' item h
    rw [h]

theorem enqueueFrom_of_error {root : Value} {i : Nat} {e : LogicError}
    (h : messageStep root i = .error e) (q : List Value) :
    enqueueFrom root i q = .error e q := by
  rw [enqueueFrom_eq, h]
  rfl

theorem enqueueFrom_of_end {root root' : Value} {i : Nat}
    (h : messageStep root i = .ok (root', none)) (q : List Value) :
    enqueueFrom root i q = .ok () q := by
  rw [enqueueFrom_eq, h]
  rfl

theorem enqueueFrom_of_item {root root' item : Value} {i : Nat}
    (h : messageStep root i = .ok (root', some item)) (q : List Value) :
    enqueueFrom root i q = enqueueFrom root' (i + 1) (q ++ [item]) := by
  rw [enqueueFrom_eq, h]
  exact bind_of_ok (modify_apply _ _)

/-! ## What a payload puts on the queue -/

/-- Over an array the loop enqueues what is left of it, in order. -/
theorem enqueueFrom_array {root : Value} {elements : List Value} (q : List Value) (i : Nat)
    (hsub : root.subscriptable = true) (hdata : root.member "data" = .arrayValue elements)
    (hi : i ≤ elements.length) : enqueueFrom root i q = .ok () (q ++ elements.drop i) := by
  induction hn : elements.length - i generalizing root i q with
  | zero =>
      have hge : elements.length ≤ i := by omega
      rw [enqueueFrom_of_end (messageStep_end hsub (by rwa [hdata])), List.drop_of_length_le hge,
        List.append_nil]
  | succ n ih =>
      have hlt : i < elements.length := by omega
      have hitem : elements[i]? = some elements[i] := List.getElem?_eq_getElem hlt
      have hsub' : (root.withMember "data").subscriptable = true := by
        rwa [Value.subscriptable_withMember]
      have hdata' : (root.withMember "data").member "data" = .arrayValue elements := by
        rwa [Value.member_withMember]
      rw [enqueueFrom_of_item (messageStep_array hsub hdata hitem),
        ih (q ++ [elements[i]]) (i + 1) hsub' hdata' hlt (by omega), List.append_assoc,
        List.singleton_append, ← List.drop_eq_getElem_cons hlt]

/-- The behaviour of `on_message` is decided by the value that the parser leaves in
the root.  From a null root or an object it enqueues exactly the elements of an
array `data`, each once and in order, and nothing for an absent or scalar `data`
or an empty object; a nonempty object as `data` raises, and so does a root of any
other kind, both before anything is enqueued. -/
theorem onMessage_outcome (parse : String → Value → Bool × Value) (payload : String)
    (q : List Value) :
    let root := (parse payload .nullValue).2
    (root.subscriptable = true → ∀ elements, root.member "data" = .arrayValue elements →
      onMessage parse payload q = .ok () (q ++ elements)) ∧
    (root.subscriptable = true → (root.member "data").size = 0 →
      onMessage parse payload q = .ok () q) ∧
    (root.subscriptable = true → ∀ key m members,
      root.member "data" = .objectValue ((key, m) :: members) →
      onMessage parse payload q = .error .requiresArray q) ∧
    (root.subscriptable = false → onMessage parse payload q = .error .requiresObject q) := by
  intro root
  have hloop : onMessage parse payload = enqueueFrom root 0 := rfl
  rw [hloop]
  refine ⟨?_, ?_, ?_, ?_⟩
  · intro hsub elements hdata
    simpa using enqueueFrom_array q 0 hsub hdata (Nat.zero_le _)
  · intro hsub hsize
    exact enqueueFrom_of_end (messageStep_end hsub hsize.le) q
  · intro hsub key m members hdata
    have hpos : 0 < (root.member "data").size := by rw [hdata]; simp [Value.size]
    exact enqueueFrom_of_error (messageStep_object hsub hdata hpos) q
  · intro hsub
    exact enqueueFrom_of_error (messageStep_not_subscriptable hsub 0) q

/-- A reader that knows one document, the array `[1]`, and fails on every other. -/
def arrayReader (payload : String) (root : Value) : Bool × Value :=
  if payload = "[1]" then (true, .arrayValue [.intValue 1]) else (false, root)

/-- A top-level array raises out of the handler. -/
theorem top_level_array_raises : Raises (onMessage arrayReader "[1]") [] := by
  have hroot : (arrayReader "[1]" .nullValue).2 = .arrayValue [.intValue 1] := rfl
  have hloop : onMessage arrayReader "[1]" = enqueueFrom (.arrayValue [.intValue 1]) 0 := by
    rw [← hroot]
    rfl
  rw [hloop]
  exact ⟨_, _, enqueueFrom_of_error (messageStep_not_subscriptable rfl 0) []⟩

end TradeProcessor
