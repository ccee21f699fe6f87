/-
  Ingest.lean --- one iteration of `process` on a dequeued item.

  The debug line evaluates its arguments before anything is written, so it is the
  whole admission check: an item passes it or the iteration raises with the map
  untouched.  An item that passes is pushed, and from then on the eviction loop
  cannot raise, because the front of every deque has a `t` that converts.
-/
import TradeProcessor.Library.FrontEviction
import TradeProcessor.Compute

set_option autoImplicit false

namespace TradeProcessor

open TradeProcessor.Json TradeProcessor.Library

variable {N Q : Type} [Zero N] [Zero Q] {P : Platform N Q}

/-! ## Admission -/

/-- `item["s"].asString()`, where it does not raise. -/
def symbolOf (P : Platform N Q) (item : Value) : Option String :=
  match item.readString P.realText "s" with
  | .ok (_, symbol) => some symbol
  | .error _ => none

/-- The item passes the debug line. -/
structure Admissible (P : Platform N Q) (item : Value) : Prop where
  subscriptable : item.subscriptable = true
  s : ∃ symbol, (item.member "s").asString P.realText = .ok symbol
  t : ∃ t, (item.member "t").asInt64 = .ok t
  v : ∃ n, (item.member "v").asInt64 = .ok n

/-- The item as the debug line leaves it. -/
def admitted (item : Value) : Value :=
  ((item.withMember "s").withMember "t").withMember "v"

theorem symbolOf_eq_some_iff {item : Value} {symbol : String} :
    symbolOf P item = some symbol ↔
      item.subscriptable = true ∧ (item.member "s").asString P.realText = .ok symbol := by
  unfold symbolOf
  rw [Value.readString_eq]
  cases item.subscriptable with
  | false => simp
  | true => cases (item.member "s").asString P.realText <;> simp [Except.map]

theorem Admissible.exists_symbol {item : Value} (h : Admissible P item) :
    ∃ symbol, symbolOf P item = some symbol := by
  obtain ⟨symbol, hs⟩ := h.s
  exact ⟨symbol, symbolOf_eq_some_iff.mpr ⟨h.subscriptable, hs⟩⟩

@[simp] theorem member_admitted (key : String) (item : Value) :
    (admitted item).member key = item.member key := by
  simp [admitted, Value.member_withMember]

@[simp] theorem subscriptable_admitted (item : Value) :
    (admitted item).subscriptable = item.subscriptable := by
  simp [admitted, Value.subscriptable_withMember]

theorem symbolOf_admitted (item : Value) : symbolOf P (admitted item) = symbolOf P item := by
  unfold symbolOf
  rw [Value.readString_eq, Value.readString_eq, subscriptable_admitted, member_admitted]
  cases item.subscriptable with
  | false => rfl
  | true => cases (item.member "s").asString P.realText <;> simp [Except.map]

theorem hasMember_admitted {item : Value} (h : item.subscriptable = true) {key : String}
    (hkey : key ∈ ["s", "t", "v"]) : (admitted item).hasMember key = true := by
  have hs : (item.withMember "s").subscriptable = true := by
    rwa [Value.subscriptable_withMember]
  have ht : ((item.withMember "s").withMember "t").subscriptable = true := by
    rwa [Value.subscriptable_withMember]
  simp only [List.mem_cons, List.not_mem_nil, or_false] at hkey
  rcases hkey with rfl | rfl | rfl
  · exact Value.hasMember_withMember
      (Value.hasMember_withMember (Value.hasMember_withMember_self h "s"))
  · exact Value.hasMember_withMember (Value.hasMember_withMember_self hs "t")
  · exact Value.hasMember_withMember_self ht "v"

/-- The debug line passes exactly the admissible items. -/
theorem debugArguments_eq_ok_iff {item item' : Value} :
    debugArguments P item = .ok item' ↔ Admissible P item ∧ item' = admitted item := by
  simp only [debugArguments, except_bind_eq_ok_iff, Prod.exists, pure, Except.pure,
    Value.readString_eq_ok_iff, Value.readInt64_eq_ok_iff]
  constructor
  · rintro ⟨_, symbol, ⟨hsub, hs, rfl⟩, _, t, ⟨_, ht, rfl⟩, _, n, ⟨_, hv, rfl⟩, hitem⟩
    refine ⟨⟨hsub, ⟨symbol, hs⟩, ⟨t, ?_⟩, ⟨n, ?_⟩⟩, (Except.ok.inj hitem).symm⟩
    · simpa [Value.member_withMember] using ht
    · simpa [Value.member_withMember] using hv
  · rintro ⟨⟨hsub, ⟨symbol, hs⟩, ⟨t, ht⟩, ⟨n, hv⟩⟩, rfl⟩
    refine ⟨_, symbol, ⟨hsub, hs, rfl⟩, _, t, ⟨?_, ?_, rfl⟩, _, n, ⟨?_, ?_, rfl⟩, rfl⟩ <;>
      simpa [Value.member_withMember, Value.subscriptable_withMember]

/-! ## The eviction loop -/

/-- `item["t"].asInt64()`, where it converts. -/
def timeOf (item : Value) : Int :=
  match (item.member "t").asInt64 with
  | .ok t => t
  | .error _ => 0

/-- The item has a member `t` that converts. -/
def Stamped (item : Value) : Prop :=
  item.hasMember "t" = true ∧ ∃ t, (item.member "t").asInt64 = .ok t

theorem timeOf_eq {item : Value} {t : Int} (h : (item.member "t").asInt64 = .ok t) :
    timeOf item = t := by
  simp [timeOf, h]

theorem Stamped.accessed {keys : List String} {a b : Value} (h : Stamped a)
    (hab : Value.Accessed keys a b) : Stamped b :=
  ⟨hab.hasMember "t" h.1, by rw [hab.member]; exact h.2⟩

/-- On a deque of stamped items the loop is front eviction. -/
theorem popExpired_ok {cutoff_ms : Int} {trades : List Value}
    (h : ∀ item ∈ trades, Stamped item) :
    popExpired cutoff_ms trades = .ok () (expire timeOf cutoff_ms trades) := by
  induction trades with
  | nil => rfl
  | cons item rest ih =>
      obtain ⟨hmem, t, ht⟩ := h item (by simp)
      have hread : item.readInt64 "t" = .ok (item, t) := by
        rw [Value.readInt64_ok (Value.subscriptable_of_hasMember hmem) ht,
          Value.withMember_of_hasMember hmem]
      rw [popExpired, hread]
      dsimp only
      rcases lt_or_ge t cutoff_ms with hlt | hle
      · rw [if_pos hlt, expire_cons_of_lt timeOf (by rwa [timeOf_eq ht]),
          ih fun item' hitem' => h item' (by simp [hitem'])]
      · rw [if_neg (not_lt.mpr hle), expire_cons_of_le timeOf (by rwa [timeOf_eq ht])]

theorem evict_ok {cutoff_ms : Int} {s : SymbolState N Q} (h : ∀ item ∈ s.trades, Stamped item) :
    evict cutoff_ms s = .ok () { s with trades := expire timeOf cutoff_ms s.trades } := by
  unfold evict
  rw [popExpired_ok h]

/-- One evaluation of the loop condition, as an equation for the loop. -/
theorem popExpired_eq (cutoff_ms : Int) (trades : List Value) :
    popExpired cutoff_ms trades =
      match evictFront cutoff_ms trades with
      | .error e => .error e trades
      | .ok (trades', true) => popExpired cutoff_ms trades'
      | .ok (trades', false) => .ok () trades' := by
  cases trades with
  | nil => rfl
  | cons item rest =>
      rw [popExpired, evictFront]
      cases hread : item.readInt64 "t" with
      | error e => rfl
      | ok r =>
          obtain ⟨item', t⟩ := r
          simp only [bind, Except.bind, pure, Except.pure]
          split <;> rfl

/-- A step of the loop that goes on has popped the front. -/
theorem evictFront_eq_true {cutoff_ms : Int} {trades trades' : List Value}
    (h : evictFront cutoff_ms trades = .ok (trades', true)) :
    ∃ front, trades = front :: trades' := by
  cases trades with
  | nil => cases h
  | cons item rest =>
      rw [evictFront, except_bind_eq_ok_iff] at h
      obtain ⟨⟨item', t⟩, _, hloop⟩ := h
      dsimp only at hloop
      split at hloop
      · cases hloop
        exact ⟨item, rfl⟩
      · cases hloop

/-- A step that ends the loop leaves a deque whose items have a `t` as it was. -/
theorem evictFront_eq_false {cutoff_ms : Int} {trades trades' : List Value}
    (h : evictFront cutoff_ms trades = .ok (trades', false))
    (hmem : ∀ item ∈ trades, item.hasMember "t" = true) : trades' = trades := by
  cases trades with
  | nil =>
      cases h
      rfl
  | cons item rest =>
      rw [evictFront, except_bind_eq_ok_iff] at h
      obtain ⟨⟨item', t⟩, hread, hloop⟩ := h
      obtain ⟨_, _, rfl⟩ := Value.readInt64_eq_ok_iff.mp hread
      dsimp only at hloop
      split at hloop
      · cases hloop
      · cases hloop
        rw [Value.withMember_of_hasMember (hmem item (by simp))]

/-! ## The iteration -/

/-- Every entry of every deque is stamped. -/
def StampedMap (m : SymbolMap N Q) : Prop :=
  ∀ k s, m.lookup k = some s → ∀ item ∈ s.trades, Stamped item

theorem stampedMap_empty : StampedMap (∅ : SymbolMap N Q) := by
  intro k s hs
  simp at hs

/-- The state of the symbol once the item is pushed and the front evicted. -/
def ingested (now : Int) (item : Value) (s : SymbolState N Q) : SymbolState N Q :=
  { s with trades := expire timeOf (cutoffMs now) (s.trades ++ [item]) }

theorem lookup_subscript (k : String) (m : SymbolMap N Q) :
    (m.subscript k).lookup k = some ((m.lookup k).getD {}) := by
  unfold SymbolMap.subscript
  cases h : m.lookup k with
  | none => simp [AList.lookup_insert]
  | some s => simp [h]

theorem lookup_subscript_ne {j k : String} (hjk : j ≠ k) (m : SymbolMap N Q) :
    (m.subscript k).lookup j = m.lookup j := by
  unfold SymbolMap.subscript
  cases h : m.lookup k with
  | none => exact AList.lookup_insert_ne hjk
  | some s => rfl

theorem stamped_admitted {item : Value} (h : Admissible P item) : Stamped (admitted item) :=
  ⟨hasMember_admitted h.subscriptable (by simp), by simpa using h.t⟩

/-- The map once the item is on the deque of the symbol. -/
def SymbolMap.pushed (m : SymbolMap N Q) (k : String) (item : Value) : SymbolMap N Q :=
  (m.subscript k).insert k (SymbolState.pushBack item ((m.lookup k).getD {}))

theorem lookup_pushed (m : SymbolMap N Q) (k : String) (item : Value) :
    (m.pushed k item).lookup k = some (SymbolState.pushBack item ((m.lookup k).getD {})) :=
  AList.lookup_insert _

theorem lookup_pushed_ne {j k : String} (hjk : j ≠ k) (m : SymbolMap N Q) (item : Value) :
    (m.pushed k item).lookup j = m.lookup j := by
  rw [SymbolMap.pushed, AList.lookup_insert_ne hjk, lookup_subscript_ne hjk]

/-- The first piece of the iteration, for an admissible item. -/
theorem pushItem_of_admissible {item : Value} {k : String} (hadm : Admissible P item)
    (hk : symbolOf P item = some k) (m : SymbolMap N Q) :
    pushItem P item m = .ok (admitted item, k) (m.pushed k (admitted item)) := by
  have hdebug : debugArguments P item = .ok (admitted item) :=
    debugArguments_eq_ok_iff.mpr ⟨hadm, rfl⟩
  obtain ⟨hsub, hs⟩ := symbolOf_eq_some_iff.mp hk
  have hsymbol : (admitted item).readString P.realText "s" = .ok (admitted item, k) := by
    rw [Value.readString_eq_ok_iff, subscriptable_admitted, member_admitted]
    exact ⟨hsub, hs, (Value.withMember_of_hasMember
      (hasMember_admitted hsub (by simp))).symm⟩
  -- The push runs on the state that `operator[]` found or inserted.
  have hpush : atSymbol k (modify (SymbolState.pushBack (admitted item))) (m.subscript k) =
      .ok () (m.pushed k (admitted item)) :=
    atSymbol_of_ok (lookup_subscript k m) (modify_apply _ _)
  rw [pushItem, jsonRead, hdebug, bind_of_ok (evaluate_ok_apply _ _ _), jsonRead, hsymbol,
    bind_of_ok (evaluate_ok_apply _ _ _)]
  dsimp only
  rw [bind_of_ok (modify_apply _ _), bind_of_ok hpush, pure_apply]

theorem pushItem_of_not_admissible {item : Value} (h : ¬ Admissible P item) (m : SymbolMap N Q) :
    ∃ e, pushItem P item m = .error (.json e) m := by
  cases hdebug : debugArguments P item with
  | ok item' => exact absurd (debugArguments_eq_ok_iff.mp hdebug).1 h
  | error e =>
      refine ⟨e, ?_⟩
      rw [pushItem, jsonRead, hdebug]
      exact bind_of_error (evaluate_error_apply Fault.json e m)

/-- What a completed push says. -/
theorem pushItem_eq_ok {item item' : Value} {k : String} {m m' : SymbolMap N Q}
    (h : pushItem P item m = .ok (item', k) m') :
    Admissible P item ∧ symbolOf P item = some k ∧ item' = admitted item ∧
      m' = m.pushed k (admitted item) := by
  by_cases hadm : Admissible P item
  · obtain ⟨symbol, hsymbol⟩ := hadm.exists_symbol
    rw [pushItem_of_admissible hadm hsymbol m] at h
    cases h
    exact ⟨hadm, hsymbol, rfl, rfl⟩
  · obtain ⟨e, he⟩ := pushItem_of_not_admissible hadm m
    rw [he] at h
    cases h

theorem processItem_eq (now : Int) (item : Value) :
    processItem P now item = pushItem P item >>= fun r => do
      let (item, _ts) ← jsonRead (r.1.readInt64 "t")
      atSymbol r.2 (evict (cutoffMs now))
      return item := by
  simp [processItem, pushItem]

/-- A rejected item raises out of the iteration and leaves the map as it was. -/
theorem processItem_of_not_admissible (now : Int) {item : Value} (m : SymbolMap N Q)
    (h : ¬ Admissible P item) : ∃ e, processItem P now item m = .error (.json e) m := by
  obtain ⟨e, he⟩ := pushItem_of_not_admissible h m
  exact ⟨e, by rw [processItem_eq, bind_of_error he]⟩

theorem StampedMap.pushed {m : SymbolMap N Q} (hm : StampedMap m) {item : Value}
    (hitem : Stamped item) (k : String) : StampedMap (m.pushed k item) := by
  intro j s hs x hx
  by_cases hjk : j = k
  · subst hjk
    rw [lookup_pushed] at hs
    cases hs
    rcases List.mem_append.mp hx with hold | hnew
    · cases hlookup : m.lookup j with
      | none => simp [hlookup] at hold
      | some s => exact hm j s hlookup x (by simpa [hlookup] using hold)
    · rw [List.mem_singleton.mp hnew]
      exact hitem
  · rw [lookup_pushed_ne hjk] at hs
    exact hm j s hs x hx

/-- An admissible item is pushed and the front of its deque evicted; nothing else
changes. -/
theorem processItem_of_admissible (now : Int) {item : Value} {m : SymbolMap N Q} {k : String}
    (hadm : Admissible P item) (hk : symbolOf P item = some k) (hm : StampedMap m) :
    ∃ m', processItem P now item m = .ok (admitted item) m' ∧
      m'.lookup k = some (ingested now (admitted item) ((m.lookup k).getD {})) ∧
      ∀ j, j ≠ k → m'.lookup j = m.lookup j := by
  have hstamped := stamped_admitted hadm
  have hmem := hstamped.1
  obtain ⟨t, ht⟩ := hstamped.2
  have htime : (admitted item).readInt64 "t" = .ok (admitted item, t) := by
    rw [Value.readInt64_ok (by simpa using hadm.subscriptable) ht,
      Value.withMember_of_hasMember hmem]
  have hevict : evict (cutoffMs now)
      (SymbolState.pushBack (admitted item) ((m.lookup k).getD {})) =
      .ok () (ingested now (admitted item) ((m.lookup k).getD {})) :=
    evict_ok (hm.pushed hstamped k k _ (lookup_pushed m k (admitted item)))
  refine ⟨(m.pushed k (admitted item)).insert k
    (ingested now (admitted item) ((m.lookup k).getD {})), ?_, AList.lookup_insert _, ?_⟩
  · rw [processItem_eq, bind_of_ok (pushItem_of_admissible hadm hk m), jsonRead, htime,
      bind_of_ok (evaluate_ok_apply _ _ _)]
    dsimp only
    rw [bind_of_ok (atSymbol_of_ok (lookup_pushed m k (admitted item)) hevict), pure_apply]
  · intro j hj
    rw [AList.lookup_insert_ne hj, lookup_pushed_ne hj]

/-- An iteration that completes had an admissible item. -/
theorem admissible_of_processItem {now : Int} {item item' : Value} {m m' : SymbolMap N Q}
    (h : processItem P now item m = .ok item' m') : Admissible P item := by
  by_contra hnot
  obtain ⟨e, he⟩ := processItem_of_not_admissible now m hnot
  rw [he] at h
  cases h

end TradeProcessor
