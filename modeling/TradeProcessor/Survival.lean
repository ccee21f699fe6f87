/-
  Survival.lean --- which feeds the program survives.

  No exception is caught on the way from `on_message` to the calculators, so one that
  is raised ends the program.  Whether a feed raises one is decided by its messages,
  one by one: how they are interleaved with the worker and the scheduler does not
  matter, and neither does what came before.
-/
import TradeProcessor.Sequential
import TradeProcessor.Admission
import TradeProcessor.Progress

set_option autoImplicit false

namespace TradeProcessor

open TradeProcessor.Json TradeProcessor.Library

/-- `process` lets the item in and the calculators can read it. -/
structure Harmless (P : Platform) (item : Value) : Prop where
  admissible : Admissible P item
  price : HasPrice item

/-- The root can be subscripted, its `data` is an array of harmless items or something
that counts no elements. -/
structure Sound (P : Platform) (completeJsonData : Value) : Prop where
  subscriptable : completeJsonData.subscriptable = true
  data : ∀ members, completeJsonData.member "data" = .objectValue members → members = []
  items : ∀ item ∈ dataOf completeJsonData, Harmless P item

/-- Every message that the actions receive is of the feed. -/
def Receives (feed : Value → Prop) (as : List Act) : Prop :=
  ∀ root, Act.receive root ∈ as → feed root

variable {P : Platform} {σ σ' : System} {os : List Output} {a : Act}

/-! ## Sound messages -/

/-- When the loop of `on_message` raises. -/
theorem messageStep_raises_iff {root : Value} {i : Nat} :
    (∃ e, messageStep root i = .error e) ↔
      (root.subscriptable = true → ∃ members, root.member "data" = .objectValue members ∧
        i < members.length) := by
  cases hsub : root.subscriptable with
  | false => exact ⟨fun _ h => absurd h Bool.false_ne_true,
      fun _ => ⟨_, messageStep_not_subscriptable hsub i⟩⟩
  | true =>
      constructor
      · rintro ⟨e, he⟩ _
        rcases lt_or_ge i (root.member "data").size with hlt | hge
        · cases hdata : root.member "data" with
          | objectValue members =>
              rw [hdata] at hlt
              exact ⟨members, rfl, hlt⟩
          | arrayValue elements =>
              rw [hdata] at hlt
              have hi : elements[i]? = some elements[i] := List.getElem?_eq_getElem hlt
              rw [messageStep_array hsub hdata hi] at he
              cases he
          | _ =>
              rw [hdata] at hlt
              simp [Value.size] at hlt
        · rw [messageStep_end hsub hge] at he
          cases he
      · intro h
        obtain ⟨members, hdata, hi⟩ := h rfl
        exact ⟨_, messageStep_object hsub hdata (by rwa [hdata])⟩

theorem Sound.not_raises {root : Value} (h : Sound P root) {i : Nat} {e : LogicError} :
    messageStep root i ≠ .error e := by
  intro he
  obtain ⟨members, hdata, hi⟩ := messageStep_raises_iff.mp ⟨e, he⟩ h.subscriptable
  rw [h.data members hdata] at hi
  exact Nat.not_lt_zero i hi

/-- The loop leaves the root sound. -/
theorem Sound.withMember {root : Value} (h : Sound P root) :
    Sound P (root.withMember "data") where
  subscriptable := by
    rw [Value.subscriptable_withMember]
    exact h.subscriptable
  data := by simpa [Value.member_withMember] using h.data
  items := by simpa using h.items

theorem Sound.item {root root' item : Value} {i : Nat} (h : Sound P root)
    (hstep : messageStep root i = .ok (root', some item)) : Sound P root' ∧ Harmless P item := by
  obtain ⟨_, rfl, elements, hdata, hi⟩ := messageStep_eq_some hstep
  refine ⟨h.withMember, h.items item ?_⟩
  rw [dataOf, hdata]
  exact List.mem_of_getElem? hi

theorem hasPrice_admitted {item : Value} : HasPrice (admitted item) ↔ HasPrice item := by
  simp [HasPrice, Converts]

/-! ## A sound feed raises nothing -/

/-- The calculators can read every entry. -/
def ReadableMap (m : SymbolMap) : Prop :=
  ∀ k s, m.lookup k = some s → ∀ item ∈ s.trades, HasTime item ∧ HasVolume item ∧ HasPrice item

/-- Nothing on its way through the program can raise. -/
structure Sane (P : Platform) (σ : System) : Prop where
  message : ∀ root i, σ.io = .sending root i → Sound P root
  queue : ∀ item ∈ σ.q, Harmless P item
  dequeued : ∀ item, σ.worker = .dequeued item → Harmless P item
  pushed : ∀ item symbol, σ.worker = .pushed item symbol → HasTime item
  stamped : StampedMap σ.symbolStates
  readable : ReadableMap σ.symbolStates

theorem ReadableMap.insert {m : SymbolMap} (hm : ReadableMap m) {k : String} {s : SymbolState}
    (hs : ∀ x ∈ s.trades, HasTime x ∧ HasVolume x ∧ HasPrice x) :
    ReadableMap (m.insert k s) := by
  intro j t ht x hx
  by_cases hjk : j = k
  · subst hjk
    rw [AList.lookup_insert] at ht
    cases ht
    exact hs x hx
  · rw [AList.lookup_insert_ne hjk] at ht
    exact hm j t ht x hx

theorem ReadableMap.pushed {m : SymbolMap} (hm : ReadableMap m) {item : Value}
    (hitem : Harmless P item) (k : String) : ReadableMap (m.pushed k (admitted item)) := by
  intro j t ht x hx
  by_cases hjk : j = k
  · subst hjk
    rw [lookup_pushed] at ht
    cases ht
    rcases List.mem_append.mp hx with hold | hnew
    · cases hlookup : m.lookup j with
      | none => simp [hlookup] at hold
      | some s => exact hm j s hlookup x (by simpa [hlookup] using hold)
    · rw [List.mem_singleton.mp hnew]
      exact ⟨hasTime_admitted hitem.admissible, hasVolume_admitted hitem.admissible,
        hasPrice_admitted.mpr hitem.price⟩
  · rw [lookup_pushed_ne hjk] at ht
    exact hm j t ht x hx

/-- No step lets an unreadable entry into a deque. -/
theorem readable_step (hσ : Sane P σ) (hmove : Moves P σ a σ' os) :
    ReadableMap σ'.symbolStates := by
  have hm := hσ.readable
  cases hmove with
  | push hworker hpush =>
      obtain ⟨_, _, _, rfl⟩ := pushItem_eq_ok hpush
      exact hm.pushed (hσ.dequeued _ hworker) _
  | pop hworker hs hpop =>
      obtain ⟨front, hfront⟩ := evictFront_eq_true hpop
      refine hm.insert fun x hx => hm _ _ hs x ?_
      rw [hfront]
      exact List.mem_cons_of_mem _ hx
  | evictEnd hworker hs hend =>
      have htrades := evictFront_eq_false hend fun x hx => (hσ.stamped _ _ hs x hx).1
      exact hm.insert (by rw [htrades]; exact hm _ _ hs)
  | reset hscheduler hs => exact hm.insert fun x hx => hm _ _ hs x hx
  | pass hscheduler hc hs hpass =>
      refine hm.insert fun x hx => ?_
      obtain ⟨old, hold, haccess⟩ := (CalcType.process_sameEntries _ hpass).exists_source hx
      obtain ⟨ht, hv, hp⟩ := hm _ _ hs old hold
      exact ⟨(converts_accessed_iff haccess).mpr ht, (converts_accessed_iff haccess).mpr hv,
        (converts_accessed_iff haccess).mpr hp⟩
  | _ => exact hm

theorem sane_start : Sane P {} where
  message := by simp
  queue := by simp
  dequeued := by simp
  pushed := by simp
  stamped := stampedMap_empty
  readable := by
    intro k s hs
    simp at hs

theorem sane_step (hσ : Sane P σ) (hmove : Moves P σ a σ' os)
    (hfeed : ∀ root, a = .receive root → Sound P root) : Sane P σ' := by
  have hstamped := stamped_step hσ.stamped hmove
  have hreadable := readable_step hσ hmove
  cases hmove with
  | receive hio =>
      refine ⟨?_, hσ.queue, hσ.dequeued, hσ.pushed, hstamped, hreadable⟩
      rintro root i hat
      cases hat
      exact hfeed _ rfl
  | enqueue hio hitem =>
      obtain ⟨hroot, hharmless⟩ := (hσ.message _ _ hio).item hitem
      refine ⟨?_, ?_, hσ.dequeued, hσ.pushed, hstamped, hreadable⟩
      · rintro root i hat
        cases hat
        exact hroot
      · intro x hx
        rcases List.mem_append.mp hx with hold | hnew
        · exact hσ.queue x hold
        · rw [List.mem_singleton.mp hnew]
          exact hharmless
  | messageEnd hio hend =>
      exact ⟨by simp, hσ.queue, hσ.dequeued, hσ.pushed, hstamped, hreadable⟩
  | loop hworker =>
      refine ⟨hσ.message, hσ.queue, ?_, ?_, hstamped, hreadable⟩ <;>
        cases hstop : σ.stopRequested <;> simp
  | timeout hworker => exact ⟨hσ.message, hσ.queue, by simp, by simp, hstamped, hreadable⟩
  | dequeue hworker hq =>
      refine ⟨hσ.message, fun x hx => ?_, ?_, by simp, hstamped, hreadable⟩
      · exact hσ.queue x (by rw [hq]; exact List.mem_cons_of_mem _ hx)
      · rintro item hat
        cases hat
        exact hσ.queue _ (by rw [hq]; exact List.mem_cons_self)
  | push hworker hpush =>
      refine ⟨hσ.message, hσ.queue, by simp, ?_, hstamped, hreadable⟩
      rintro item symbol hat
      cases hat
      obtain ⟨hadm, _, rfl, _⟩ := pushItem_eq_ok hpush
      exact hasTime_admitted hadm
  | readClock hworker hts => exact ⟨hσ.message, hσ.queue, by simp, by simp, hstamped, hreadable⟩
  | evictEnd hworker hs hend =>
      exact ⟨hσ.message, hσ.queue, by simp, by simp, hstamped, hreadable⟩
  | _ => exact ⟨hσ.message, hσ.queue, hσ.dequeued, hσ.pushed, hstamped, hreadable⟩

theorem sane_of_execute {as : List Act} (h : execute (System.step P) as {} = some (σ, os))
    (hfeed : Receives (Sound P) as) : Sane P σ := by
  have hreaches : Reaches (System.step P) (· ∈ as) {} σ := ⟨as, os, fun a ha => ha, h⟩
  refine hreaches.keeps (Sane P) (fun a σ σ' os ha hσ hstep => ?_) sane_start
  exact sane_step hσ (step_moves hstep) fun root hroot => hfeed root (hroot ▸ ha)

/-- In a sane state no thread is about to raise. -/
theorem Sane.not_aboutToRaise (hσ : Sane P σ) (thread : Thread) : ¬ AboutToRaise P σ thread := by
  intro h
  cases h with
  | message hio hraises => exact (hσ.message _ _ hio).not_raises hraises
  | @push item e m hworker hraises =>
      have hadm := (hσ.dequeued _ hworker).admissible
      obtain ⟨symbol, hsymbol⟩ := hadm.exists_symbol
      rw [pushItem_of_admissible hadm hsymbol] at hraises
      cases hraises
  | readClock hworker hraises =>
      obtain ⟨hsub, t, ht⟩ := hσ.pushed _ _ hworker
      rw [Value.readInt64_ok hsub ht] at hraises
      cases hraises
  | @evict item symbol cutoff_ms s e hworker hs hraises =>
      have hstamped := hσ.stamped _ _ hs
      cases htrades : s.trades with
      | nil =>
          rw [htrades] at hraises
          cases hraises
      | cons front rest =>
          obtain ⟨hmem, t, ht⟩ := hstamped front (by simp [htrades])
          rw [htrades, evictFront, Value.readInt64_ok (Value.subscriptable_of_hasMember hmem) ht]
            at hraises
          simp only [bind, Except.bind, pure, Except.pure] at hraises
          split at hraises <;> cases hraises
  | @pass started visited symbol n c s s' e hscheduler hc hs hraises =>
      obtain ⟨w, hreads⟩ := exists_readsAs (hσ.readable _ _ hs)
      obtain ⟨trades, _, hok⟩ := c.process_ok hreads
      rw [hok] at hraises
      cases hraises

/-! ## A message that is not sound ends some run -/

/-- The action is none of the network's. -/
def Act.internal : Act → Prop
  | .receive _ => False
  | _ => True

theorem internal_of_worker {a : Act} (h : a.thread = .worker) : a.internal := by
  cases a with
  | receive root => cases h
  | _ => trivial

theorem Moves.reaches (hmove : Moves P σ a σ' os) (ha : a.internal) :
    Reaches (System.step P) Act.internal σ σ' :=
  .single ha (step_of_moves hmove)

/-- The io thread alone enqueues what is left of an array. -/
theorem reaches_enqueued (σ : System) {root : Value} {elements : List Value} {i : Nat}
    (hsub : root.subscriptable = true) (hdata : root.member "data" = .arrayValue elements)
    (hi : i ≤ elements.length) :
    Reaches (System.step P) Act.internal { σ with io := .sending root i }
      { σ with io := .idle, q := σ.q ++ elements.drop i } := by
  induction hn : elements.length - i generalizing σ root i with
  | zero =>
      have hge : elements.length ≤ i := by omega
      have hend := Moves.messageEnd (P := P) (σ := { σ with io := .sending root i }) rfl
        (messageStep_end hsub (by rwa [hdata]))
      rw [List.drop_of_length_le hge, List.append_nil]
      exact hend.reaches trivial
  | succ n ih =>
      have hlt : i < elements.length := by omega
      have hitem : elements[i]? = some elements[i] := List.getElem?_eq_getElem hlt
      have hstep := Moves.enqueue (P := P) (σ := { σ with io := .sending root i }) rfl
        (messageStep_array hsub hdata hitem)
      have hsub' : (root.withMember "data").subscriptable = true := by
        rwa [Value.subscriptable_withMember]
      have hdata' : (root.withMember "data").member "data" = .arrayValue elements := by
        rwa [Value.member_withMember]
      have hrest := ih { σ with q := σ.q ++ [elements[i]] } hsub' hdata' (i := i + 1) hlt
        (by omega)
      rw [List.append_assoc, List.singleton_append, ← List.drop_eq_getElem_cons hlt] at hrest
      exact (hstep.reaches trivial).trans hrest

/-- The worker is at its loop condition and the token has not been stopped. -/
structure Working (σ : System) : Prop where
  worker : ∃ item, σ.worker = .looping item
  running : σ.stopRequested = false
  stamped : StampedMap σ.symbolStates

/-- The worker takes the next item off the queue. -/
theorem reaches_dequeued (hσ : Working σ) {item : Value} {q : List Value}
    (hq : σ.q = item :: q) :
    Reaches (System.step P) (·.thread = .worker) σ
      { σ with worker := .dequeued item, q := q } := by
  obtain ⟨last, hworker⟩ := hσ.worker
  have hloop : System.step P .loop σ = some ({ σ with worker := .waiting last }, []) := by
    rw [step_of_moves (.loop hworker), if_neg (by simp [hσ.running])]
  exact .head rfl hloop (.single rfl (step_of_moves (.dequeue rfl hq)))

/-- The worker alone processes admissible items until the queue is down to the rest. -/
theorem reaches_processed {done rest : List Value} (hσ : Working σ) (hq : σ.q = done ++ rest)
    (hdone : ∀ item ∈ done, Admissible P item) :
    ∃ item m, StampedMap m ∧ Reaches (System.step P) (·.thread = .worker) σ
      { σ with worker := .looping item, q := rest, symbolStates := m } := by
  induction done generalizing σ with
  | nil =>
      obtain ⟨last, hworker⟩ := hσ.worker
      refine ⟨last, σ.symbolStates, hσ.stamped, ?_⟩
      rw [← hworker, ← show σ.q = rest from hq]
      exact .refl _ _
  | cons item done ih =>
      have hadm := hdone item (by simp)
      obtain ⟨k, hk⟩ := hadm.exists_symbol
      obtain ⟨m, hprocess, _⟩ := processItem_of_admissible 0 hadm hk hσ.stamped
      have hstamped : StampedMap m := by
        have hevent : Event.apply P (.ingest item 0) σ.symbolStates = .ok () m :=
          Event.apply_ingest_eq_ok_iff.mpr ⟨_, hprocess⟩
        exact Event.apply_stamped hσ.stamped hevent
      have hfirst := (reaches_dequeued (P := P) hσ hq).trans
        (worker_runs_processItem (σ := { σ with worker := .dequeued item, q := done ++ rest })
          rfl hprocess)
      obtain ⟨last, m', hm', hlater⟩ := ih
        (σ := { σ with
          worker := .looping (admitted item), q := done ++ rest, symbolStates := m })
        ⟨⟨_, rfl⟩, hσ.running, hstamped⟩ rfl fun x hx => hdone x (by simp [hx])
      exact ⟨last, m', hm', hfirst.trans hlater⟩

/-- A scheduler whose remaining passes raise comes to the pass that does. -/
theorem reaches_raising_pass {started visited : List String} {k : String} {n : Nat}
    {s : SymbolState} (hscheduler : σ.scheduler = .computing started visited k n)
    (hs : σ.symbolStates.lookup k = some s) (hn : n ≤ calcTypes.length)
    (hraises : Raises (passes (calcTypes.drop n)) s) :
    ∃ σ', Reaches (System.step P) Act.internal σ σ' ∧ AboutToRaise P σ' .scheduler := by
  induction hl : calcTypes.drop n generalizing σ n s with
  | nil =>
      rw [hl] at hraises
      obtain ⟨e, s', h⟩ := hraises
      cases h
  | cons c rest ih =>
      have hlt : n < calcTypes.length := by
        by_contra hge
        rw [List.drop_of_length_le (by omega)] at hl
        cases hl
      have hcons := List.drop_eq_getElem_cons hlt
      rw [hl, List.cons.injEq] at hcons
      have hc : calcTypes[n]? = some c := by
        rw [List.getElem?_eq_getElem hlt, hcons.1]
      cases hpass : c.process s with
      | error e s' => exact ⟨σ, .refl _ _, .pass hscheduler hc hs hpass⟩
      | ok u s' =>
          have hrest : Raises (passes (calcTypes.drop (n + 1))) s' := by
            obtain ⟨e, s'', h⟩ := hraises
            rw [hl, passes_cons, bind_of_ok hpass] at h
            exact ⟨e, s'', hcons.2 ▸ h⟩
          have hmove := Moves.pass (P := P) hscheduler hc hs hpass
          obtain ⟨σ', hreaches, hat⟩ := ih
            (σ := { σ with
              scheduler := .computing started visited k (n + 1)
              symbolStates := σ.symbolStates.insert k s' })
            rfl (AList.lookup_insert _) hlt hrest hcons.2.symm
          exact ⟨σ', (hmove.reaches trivial).trans hreaches, hat⟩

/-- An entry without a price in the deque of a symbol, and the scheduler comes to a pass
that raises. -/
theorem reaches_raising_scheduler {k : String} {s : SymbolState} {item : Value}
    (hscheduler : σ.scheduler = .idle) (hrunning : σ.stopRequested = false)
    (hs : σ.symbolStates.lookup k = some s) (hitem : item ∈ s.trades)
    (hprice : ¬ HasPrice item) :
    ∃ σ', Reaches (System.step P) Act.internal σ σ' ∧ AboutToRaise P σ' .scheduler := by
  have hraises : Raises (passes (calcTypes.drop 0)) s.resetFeatures := by
    rw [← not_completes_iff]
    intro hcompletes
    have hcompute : Completes (computeSymbol calcTypes) s := by
      obtain ⟨u, s', h⟩ := hcompletes
      exact ⟨u, s', by rw [computeSymbol_eq]; exact h⟩
    obtain ⟨w, hreads⟩ := completes_computeSymbol_iff.mp hcompute
    exact hprice (hreads.readable item hitem).2.2
  have hkey : k ∈ σ.symbolStates.keys := mem_keys_iff.mpr (by rw [hs]; rfl)
  have htick := Moves.tick (P := P) hscheduler (by rw [hrunning]; exact Bool.false_ne_true)
  have hlock := Moves.lock (P := P)
    (σ := { σ with scheduler := .iterating σ.symbolStates.keys [] })
    rfl ⟨hkey, List.not_mem_nil⟩
  have hreset := Moves.reset (P := P)
    (σ := { σ with scheduler := .locked σ.symbolStates.keys [] k }) rfl hs
  obtain ⟨σ', hreaches, hat⟩ := reaches_raising_pass (P := P)
    (σ := { σ with
      scheduler := .computing σ.symbolStates.keys [] k 0
      symbolStates := σ.symbolStates.insert k s.resetFeatures })
    rfl (AList.lookup_insert _) (Nat.zero_le _) hraises
  have hlocked := (htick.reaches trivial).trans (hlock.reaches trivial)
  exact ⟨σ', (hlocked.trans (hreset.reaches trivial)).trans hreaches, hat⟩

/-- The first harmful item on the queue raises: in `process`, if it is let in not even
there, else in `computeFeatures`. -/
theorem reaches_raising_item {done rest : List Value} {item : Value} (hσ : Working σ)
    (hscheduler : σ.scheduler = .idle) (hq : σ.q = done ++ item :: rest)
    (hdone : ∀ x ∈ done, Admissible P x) (hitem : ¬ Harmless P item) :
    ∃ σ' thread, Reaches (System.step P) Act.internal σ σ' ∧ AboutToRaise P σ' thread := by
  obtain ⟨last, m, hm, hprocessed⟩ := reaches_processed hσ hq hdone
  have hdequeued := reaches_dequeued (P := P) (q := rest)
    (σ := { σ with worker := .looping last, q := item :: rest, symbolStates := m })
    ⟨⟨last, rfl⟩, hσ.running, hm⟩ rfl
  have hreaches := (hprocessed.trans hdequeued).mono fun _ => internal_of_worker
  by_cases hadm : Admissible P item
  · obtain ⟨k, hk⟩ := hadm.exists_symbol
    have hpush := Moves.push (P := P)
      (σ := { σ with worker := .dequeued item, q := rest, symbolStates := m }) rfl
      (pushItem_of_admissible hadm hk m)
    obtain ⟨σ', hlater, hat⟩ := reaches_raising_scheduler (P := P)
      (σ := { σ with
        worker := .pushed (admitted item) k
        q := rest
        symbolStates := m.pushed k (admitted item) })
      hscheduler hσ.running (lookup_pushed m k (admitted item))
      (List.mem_append_right _ (List.mem_singleton_self _))
      fun hprice => hitem ⟨hadm, hasPrice_admitted.mp hprice⟩
    exact ⟨σ', .scheduler, hreaches.trans ((hpush.reaches trivial).trans hlater), hat⟩
  · obtain ⟨e, he⟩ := pushItem_of_not_admissible hadm m
    exact ⟨_, .worker, hreaches, .push rfl he⟩

theorem exists_first_harmful {items : List Value} (h : ¬ ∀ item ∈ items, Harmless P item) :
    ∃ done item rest, items = done ++ item :: rest ∧ (∀ x ∈ done, Harmless P x) ∧
      ¬ Harmless P item := by
  classical
  have hsome : (items.find? fun x => ¬ Harmless P x).isSome = true := by
    simpa [List.find?_isSome] using h
  obtain ⟨item, hfind⟩ := Option.isSome_iff_exists.mp hsome
  obtain ⟨hitem, done, rest, hitems, hdone⟩ := List.find?_eq_some_iff_append.mp hfind
  exact ⟨done, item, rest, hitems, by simpa using hdone, by simpa using hitem⟩

/-- One unsound message, sent first, and some run comes to a statement that raises. -/
theorem reaches_raising (P : Platform) {root : Value} (h : ¬ Sound P root) :
    ∃ σ thread, Reaches (System.step P) Act.internal
      { ({} : System) with io := .sending root 0 } σ ∧ AboutToRaise P σ thread := by
  by_cases hraises : ∃ e, messageStep root 0 = .error e
  · obtain ⟨e, he⟩ := hraises
    exact ⟨_, .io, .refl _ _, .message rfl he⟩
  · simp only [messageStep_raises_iff, not_forall, not_exists, not_and] at hraises
    obtain ⟨hsub, hdata⟩ := hraises
    have hitems : ¬ ∀ item ∈ dataOf root, Harmless P item := by
      refine fun hitems => h ⟨hsub, fun members hmembers => ?_, hitems⟩
      exact List.length_eq_zero_iff.mp (Nat.le_zero.mp (not_lt.mp (hdata members hmembers)))
    obtain ⟨done, item, rest, heq, hdone, hitem⟩ := exists_first_harmful hitems
    have harray : root.member "data" = .arrayValue (dataOf root) := by
      cases hmember : root.member "data" with
      | arrayValue elements => simp [dataOf, hmember]
      | _ => simp [dataOf, hmember] at heq
    have hio := reaches_enqueued (P := P) {} hsub harray (Nat.zero_le _)
    obtain ⟨σ, thread, hlater, hat⟩ := reaches_raising_item (P := P)
      (σ := { ({} : System) with q := dataOf root })
      ⟨⟨_, rfl⟩, rfl, stampedMap_empty⟩ rfl heq (fun x hx => (hdone x hx).admissible) hitem
    exact ⟨σ, thread, hio.trans hlater, hat⟩

/-- Which feeds the program survives, with a calculator pass as one step.  Every message
of a feed is sound exactly when, in every run that receives messages of this feed alone,
in every state each thread can make a step or has been stopped.  So no order of the
messages and no interleaving of the steps makes a sound feed raise, and one unsound
message is enough. -/
theorem survives_iff (P : Platform) (feed : Value → Prop) :
    (∀ root, feed root → Sound P root) ↔
      ∀ as σ os, execute (System.step P) as {} = some (σ, os) → Receives feed as →
        ∀ thread, Enabled P σ thread ∨ Ended σ thread := by
  constructor
  · intro hsound as σ os h hfeed thread
    have hsane := sane_of_execute h fun root hroot => hsound root (hfeed root hroot)
    by_contra hnot
    obtain ⟨hstuck, hrunning⟩ := not_or.mp hnot
    rcases (not_enabled_iff h thread).mp hstuck with hraises | hended
    · exact hsane.not_aboutToRaise thread hraises
    · exact hrunning hended
  · intro hruns root hroot
    by_contra hunsound
    obtain ⟨σ, thread, ⟨as, os, has, hexec⟩, hraises⟩ := reaches_raising P hunsound
    have hreceive := step_of_moves
      (show Moves P {} (.receive root) { io := .sending root 0 } [.received root] from
        .receive rfl)
    have hrun := execute_cons_eq_some_iff.mpr ⟨_, _, os, hreceive, hexec, rfl⟩
    have hfeed : Receives feed (.receive root :: as) := by
      intro root' hmem
      rcases List.mem_cons.mp hmem with heq | hmem
      · cases heq
        exact hroot
      · exact (has _ hmem).elim
    rcases hruns _ σ _ hrun hfeed thread with henabled | hended
    · exact not_enabled_of_raises hraises henabled
    · cases hraises <;> cases hended <;> simp_all

end TradeProcessor
