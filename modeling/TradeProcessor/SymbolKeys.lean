/-
  SymbolKeys.lean --- the keys of the symbol map.

  `main` reserves 1000 places, so that `process` would not rehash the map under the
  loops of `computeFeatures` and of the logger, which take no lock of the map.
  `process` inserts whatever an item has for its `s`.  What the map then holds is
  decided by the feed; the configuration only says what is subscribed to.
-/
import TradeProcessor.Arrivals
import TradeProcessor.System

set_option autoImplicit false

namespace TradeProcessor

open TradeProcessor.Json TradeProcessor.Library

/-- `symbolStateMap.reserve(1000)`. -/
def reserved : Nat := 1000

/-- The number of elements of the map. -/
def System.size (σ : System) : Nat := σ.symbolStates.keys.length

/-- The map has keys of the configuration only, and no more of them than places. -/
structure Reserved (configured : List String) (σ : System) : Prop where
  configured : ∀ k ∈ σ.symbolStates.keys, k ∈ configured
  size : σ.size ≤ reserved

/-- The action does not insert an element beyond the buckets. -/
def NoRehash (P : Platform) (buckets : Nat) (a : Act) (σ : System) : Prop :=
  ∀ σ' os, System.step P a σ = some (σ', os) → σ.size < σ'.size → σ'.size ≤ buckets

instance (P : Platform) (buckets : Nat) (a : Act) (σ : System) :
    Decidable (NoRehash P buckets a σ) :=
  match h : System.step P a σ with
  | none => .isTrue fun σ' os hstep => by
      rw [h] at hstep
      cases hstep
  | some (σ', _) =>
      decidable_of_iff (σ.size < σ'.size → σ'.size ≤ buckets)
        ⟨fun hfits σ₁ os₁ hstep => by
          rw [h] at hstep
          cases hstep
          exact hfits, fun hfits => hfits _ _ h⟩

/-- `process` is about to file an item under a configured symbol, if any. -/
def FiledConfigured (P : Platform) (configured : List String) : Act → System → Prop
  | .push, σ => ∀ item symbol, σ.worker = .dequeued item → symbolOf P item = some symbol →
      symbol ∈ configured
  | _, _ => True

variable {P : Platform} {σ σ' : System} {os : List Output} {configured : List String}

/-! ## Where keys come from -/

theorem mem_keys_iff {m : SymbolMap} {k : String} : k ∈ m.keys ↔ (m.lookup k).isSome = true := by
  rw [AList.lookup_isSome, AList.mem_keys]

/-- Writing to a symbol that is there. -/
theorem mem_keys_insert {m : SymbolMap} {k j : String} {s s' : SymbolState}
    (hs : m.lookup k = some s) : j ∈ (m.insert k s').keys ↔ j ∈ m.keys := by
  by_cases hj : j = k
  · subst hj
    rw [mem_keys_iff, mem_keys_iff, AList.lookup_insert, hs]
    rfl
  · rw [mem_keys_iff, mem_keys_iff, AList.lookup_insert_ne hj]

theorem mem_keys_pushed {m : SymbolMap} {k j : String} {item : Value} :
    j ∈ (m.pushed k item).keys ↔ j = k ∨ j ∈ m.keys := by
  by_cases hj : j = k
  · subst hj
    simp [mem_keys_iff, lookup_pushed]
  · rw [mem_keys_iff, mem_keys_iff, lookup_pushed_ne hj]
    simp [hj]

/-- A step of the system inserts the symbol of the item that it files, and no other
key; and it removes none. -/
theorem mem_keys_step {a : Act} (hmove : Moves P σ a σ' os) (k : String) :
    k ∈ σ'.symbolStates.keys ↔ k ∈ σ.symbolStates.keys ∨
      a = .push ∧ ∃ item, σ.worker = .dequeued item ∧ symbolOf P item = some k := by
  cases hmove with
  | push hworker hpush =>
      obtain ⟨_, hsymbol, _, rfl⟩ := pushItem_eq_ok hpush
      simp only [mem_keys_pushed, true_and, hworker, WorkerThread.dequeued.injEq,
        exists_eq_left', hsymbol, Option.some.injEq]
      rw [or_comm, eq_comm]
  | pop _ hs _ | evictEnd _ hs _ | reset _ hs | pass _ _ hs _ =>
      simp only [mem_keys_insert hs]
      simp
  | _ => simp

/-- Only a push inserts. -/
theorem size_of_ne_push {a : Act} (hmove : Moves P σ a σ' os) (ha : a ≠ .push) :
    σ'.size = σ.size := by
  refine ((List.perm_ext_iff_of_nodup σ'.symbolStates.keys_nodup
    σ.symbolStates.keys_nodup).mpr fun k => ?_).length_eq
  rw [mem_keys_step hmove]
  simp [ha]

/-! ## The reservation -/

/-- Configured keys are few. -/
theorem size_le_of_configured (hconfigured : configured.length ≤ reserved)
    (h : ∀ k ∈ σ.symbolStates.keys, k ∈ configured) : σ.size ≤ reserved :=
  (σ.symbolStates.keys_nodup.length_le_of_subset h).trans hconfigured

theorem reserved_start : Reserved configured {} :=
  ⟨fun _ hk => (List.not_mem_nil hk).elim, Nat.zero_le _⟩

theorem reserved_step {a : Act} (hconfigured : configured.length ≤ reserved)
    (hσ : Reserved configured σ) (hmove : Moves P σ a σ' os)
    (hfiled : FiledConfigured P configured a σ) : Reserved configured σ' := by
  have hkeys : ∀ k ∈ σ'.symbolStates.keys, k ∈ configured := by
    intro k hk
    rcases (mem_keys_step hmove k).mp hk with hold | ⟨rfl, item, hworker, hsymbol⟩
    · exact hσ.configured k hold
    · exact hfiled item k hworker hsymbol
  exact ⟨hkeys, size_le_of_configured hconfigured hkeys⟩

/-- An item is filed under a key that is there afterwards. -/
theorem filedConfigured_of_reserved {a : Act} (hmove : Moves P σ a σ' os)
    (hσ' : Reserved configured σ') : FiledConfigured P configured a σ := by
  cases a with
  | push =>
      intro item symbol hworker hsymbol
      exact hσ'.configured symbol
        ((mem_keys_step hmove symbol).mpr (.inr ⟨rfl, item, hworker, hsymbol⟩))
  | _ => trivial

/-- The map stays within its reservation, in every state of a run and without a rehash,
exactly when every item that `process` files is of a configured symbol. -/
theorem stays_reserved_iff {buckets : Nat} {as : List Act}
    (hconfigured : configured.length ≤ reserved) (hbuckets : reserved ≤ buckets)
    (h : execute (System.step P) as {} = some (σ, os)) :
    (Throughout (System.step P) (Reserved configured) as {} ∧
      EachStep (System.step P) (NoRehash P buckets) as {}) ↔
      EachStep (System.step P) (FiledConfigured P configured) as {} := by
  have hiff : Throughout (System.step P) (Reserved configured) as {} ↔
      EachStep (System.step P) (FiledConfigured P configured) as {} :=
    throughout_iff_eachStep (Reserved configured) (fun _ hσ => hσ)
      (fun _ _ _ _ hσ hstep hfiled => reserved_step hconfigured hσ (step_moves hstep) hfiled)
      (fun _ _ _ _ _ hstep hσ' => filedConfigured_of_reserved (step_moves hstep) hσ')
      reserved_start h
  rw [← hiff]
  refine ⟨And.left, fun hthroughout => ⟨hthroughout, ?_⟩⟩
  intro bs a cs σ₁ os₁ has hexec σ₂ os₂ hstep _
  have hnext := hthroughout (bs ++ [a]) cs σ₂ (os₁ ++ os₂) (by simp [has])
    (execute_append hexec (execute_singleton hstep))
  exact hnext.size.trans hbuckets

/-- A trade of a configured symbol. -/
def subscribedFeed : List Act :=
  [.receive (.objectValue [("data", .arrayValue [feedItem "AAPL" 1500000 2 10])]), .message,
    .message, .loop, .dequeue, .push]

theorem stays_reserved_iff_sample : ∃ σ os,
    execute (System.step Platform.listed) subscribedFeed {} = some (σ, os) ∧
    ((Throughout (System.step Platform.listed) (Reserved ["AAPL", "MSFT"]) subscribedFeed {} ∧
      EachStep (System.step Platform.listed) (NoRehash Platform.listed 1031) subscribedFeed {}) ↔
      EachStep (System.step Platform.listed) (FiledConfigured Platform.listed ["AAPL", "MSFT"])
        subscribedFeed {}) := by
  have hrun : ∃ σ os, execute (System.step Platform.listed) subscribedFeed {} = some (σ, os) :=
    ⟨_, _, rfl⟩
  obtain ⟨σ, os, h⟩ := hrun
  exact ⟨σ, os, h, stays_reserved_iff (by decide) (by decide) h⟩

/-! ## A feed of other symbols -/

/-- The io thread and the worker are between two messages, with the queue empty. -/
structure Listening (σ : System) : Prop where
  io : σ.io = .idle
  q : σ.q = []
  worker : ∃ item, σ.worker = .looping item
  running : σ.stopRequested = false

/-- A trade of a symbol, alone in its message. -/
def messageOf (symbol : String) : Value :=
  .objectValue [("data", .arrayValue [feedItem symbol 0 0 0])]

/-- From the message to the end of the iteration of `process`. -/
def feedOf (symbol : String) : List Act :=
  [.receive (messageOf symbol), .message, .message, .loop, .dequeue, .push, .readClock 0, .evict]

theorem pushItem_feedItem (symbol : String) (m : SymbolMap) :
    pushItem P (feedItem symbol 0 0 0) m =
      .ok (feedItem symbol 0 0 0, symbol) (m.pushed symbol (feedItem symbol 0 0 0)) := by
  have hvolume : (Value.realValue 0).asInt64 = .ok 0 := by decide +kernel
  have hadm : Admissible P (feedItem symbol 0 0 0) :=
    ⟨rfl, ⟨symbol, rfl⟩, ⟨0, rfl⟩, ⟨0, hvolume⟩⟩
  exact pushItem_of_admissible hadm (symbolOf_eq_some_iff.mpr ⟨rfl, rfl⟩) m

/-- `process` files the trade; there is nothing to evict. -/
theorem execute_ingest {symbol : String} {scheduler : SchedulerThread} {m : SymbolMap}
    (hnew : symbol ∉ m.keys) :
    ∃ item m', execute (System.step P) [.push, .readClock 0, .evict]
        ⟨.idle, [], .dequeued (feedItem symbol 0 0 0), scheduler, m, false⟩ =
      some (⟨.idle, [], .looping item, scheduler, m', false⟩, [.pushed symbol item]) ∧
      ∀ k, k ∈ m'.keys ↔ k = symbol ∨ k ∈ m.keys := by
  have hpush : System.step P .push
      ⟨.idle, [], .dequeued (feedItem symbol 0 0 0), scheduler, m, false⟩ =
        some (⟨.idle, [], .pushed (feedItem symbol 0 0 0) symbol, scheduler,
          m.pushed symbol (feedItem symbol 0 0 0), false⟩,
          [.pushed symbol (feedItem symbol 0 0 0)]) := by
    simp only [System.step, Act.thread, System.workerStep, pushItem_feedItem]
  have hclock : System.step P (.readClock 0)
      ⟨.idle, [], .pushed (feedItem symbol 0 0 0) symbol, scheduler,
        m.pushed symbol (feedItem symbol 0 0 0), false⟩ =
        some (⟨.idle, [], .evicting (feedItem symbol 0 0 0) symbol (cutoffMs 0), scheduler,
          m.pushed symbol (feedItem symbol 0 0 0), false⟩, []) := rfl
  have hlookup : (m.pushed symbol (feedItem symbol 0 0 0)).lookup symbol =
      some (SymbolState.pushBack (feedItem symbol 0 0 0) {}) := by
    rw [mem_keys_iff, Option.not_isSome_iff_eq_none] at hnew
    rw [lookup_pushed, hnew]
    rfl
  have hfront : evictFront (cutoffMs 0)
      (SymbolState.pushBack (feedItem symbol 0 0 0) ({} : SymbolState)).trades =
        .ok ([feedItem symbol 0 0 0], false) := rfl
  have hevict : System.step P .evict
      ⟨.idle, [], .evicting (feedItem symbol 0 0 0) symbol (cutoffMs 0), scheduler,
        m.pushed symbol (feedItem symbol 0 0 0), false⟩ =
        some (⟨.idle, [], .looping (feedItem symbol 0 0 0), scheduler,
          (m.pushed symbol (feedItem symbol 0 0 0)).insert symbol
            (SymbolState.pushBack (feedItem symbol 0 0 0) {}), false⟩, []) := by
    simp only [System.step, Act.thread, System.workerStep, hlookup, hfront]
    rfl
  refine ⟨_, _, execute_cons_eq_some_iff.mpr ⟨_, _, _, hpush,
    execute_cons_eq_some_iff.mpr ⟨_, _, _, hclock, execute_singleton hevict, rfl⟩, rfl⟩,
      fun k => ?_⟩
  rw [mem_keys_insert hlookup, mem_keys_pushed]

theorem execute_feedOf (hσ : Listening σ) {symbol : String}
    (hnew : symbol ∉ σ.symbolStates.keys) :
    ∃ σ' os, execute (System.step P) (feedOf symbol) σ = some (σ', os) ∧ Listening σ' ∧
      σ'.scheduler = σ.scheduler ∧ ∀ k, k ∈ σ'.symbolStates.keys ↔ k = symbol ∨
        k ∈ σ.symbolStates.keys := by
  obtain ⟨io, q, worker, scheduler, symbolStates, stopRequested⟩ := σ
  obtain ⟨hio, hq, ⟨item, hworker⟩, hrunning⟩ := hσ
  dsimp only at hio hq hworker hrunning hnew
  subst hio hq hworker hrunning
  have hmessage : execute (System.step P)
      [.receive (messageOf symbol), .message, .message, .loop,
      .dequeue] ⟨.idle, [], .looping item, scheduler, symbolStates, false⟩ =
        some (⟨.idle, [], .dequeued (feedItem symbol 0 0 0), scheduler, symbolStates, false⟩,
          [.received (messageOf symbol), .enqueued (feedItem symbol 0 0 0),
            .dequeued (feedItem symbol 0 0 0)]) := rfl
  obtain ⟨item', m', hingest, hkeys⟩ :=
    execute_ingest (P := P) (m := symbolStates) hnew
  exact ⟨_, _, execute_append hmessage hingest, ⟨rfl, rfl, ⟨item', rfl⟩, rfl⟩, rfl, hkeys⟩

/-- Different symbols that the map does not have, one after the other. -/
theorem exists_feed {symbols : List String} (hnodup : symbols.Nodup) (hσ : Listening σ)
    (hnew : ∀ symbol ∈ symbols, symbol ∉ σ.symbolStates.keys) :
    ∃ as σ' os, execute (System.step P) as σ = some (σ', os) ∧
      σ'.scheduler = σ.scheduler ∧ ∀ k, k ∈ σ'.symbolStates.keys ↔ k ∈ symbols ∨
        k ∈ σ.symbolStates.keys := by
  induction symbols generalizing σ with
  | nil => exact ⟨[], σ, [], rfl, rfl, by simp⟩
  | cons symbol symbols ih =>
      obtain ⟨hnotMem, hrest⟩ := List.nodup_cons.mp hnodup
      obtain ⟨mid, os, hexec, hmid, hscheduler, hkeys⟩ :=
        execute_feedOf (P := P) hσ (hnew symbol (by simp))
      have hnew' : ∀ other ∈ symbols, other ∉ mid.symbolStates.keys := by
        intro other hother hmem
        rcases (hkeys other).mp hmem with rfl | hold
        · exact hnotMem hother
        · exact hnew other (by simp [hother]) hold
      obtain ⟨as, σ', os', hexec', hscheduler', hkeys'⟩ := ih hrest hmid hnew'
      refine ⟨_, σ', _, execute_append hexec hexec', hscheduler'.trans hscheduler, fun k => ?_⟩
      rw [hkeys' k, hkeys k, List.mem_cons]
      tauto

/-- A map that is not rehashed does not outgrow its buckets. -/
theorem size_le_of_noRehash {buckets : Nat} {as : List Act}
    (hfits : EachStep (System.step P) (NoRehash P buckets) as {})
    (h : execute (System.step P) as {} = some (σ, os)) : σ.size ≤ buckets := by
  refine execute_invariant_eachStep_init (fun _ σ => σ.size ≤ buckets) ?_ (Nat.zero_le _) hfits h
  intro _ σ a σ' os' hsize hallowed hstep
  by_cases hgrows : σ.size < σ'.size
  · exact hallowed σ' os' hstep hgrows
  · omega

/-- Symbols by their lengths. -/
def lengthSymbol (n : Nat) : String := String.ofList (List.replicate n 'A')

theorem nodup_lengthSymbols (n : Nat) : ((List.range n).map lengthSymbol).Nodup := by
  refine List.nodup_range.map fun i j h => ?_
  have hlength := congrArg String.length h
  simpa [lengthSymbol, String.length_ofList] using hlength

/-- For any number of buckets there is a feed that makes `process` rehash the map while
`computeFeatures` is in its loop. -/
theorem exists_rehash (P : Platform) (buckets : Nat) :
    ∃ as σ os, execute (System.step P) as {} = some (σ, os) ∧
      σ.scheduler = .iterating [] [] ∧
      ¬ EachStep (System.step P) (NoRehash P buckets) as {} := by
  have htick : execute (System.step P) [.tick] {} =
      some ({ scheduler := .iterating [] [] }, []) := rfl
  have hlistening : Listening { scheduler := .iterating [] [] } :=
    ⟨rfl, rfl, ⟨_, rfl⟩, rfl⟩
  obtain ⟨as, σ, os, hexec, hscheduler, hkeys⟩ := exists_feed (P := P)
    (nodup_lengthSymbols (buckets + 1)) hlistening fun _ _ => List.not_mem_nil
  have hrun := execute_append htick hexec
  refine ⟨_, σ, _, hrun, hscheduler, fun hfits => ?_⟩
  have hle := (nodup_lengthSymbols (buckets + 1)).length_le_of_subset
    fun k hk => (hkeys k).mpr (.inl hk)
  rw [List.length_map, List.length_range] at hle
  have hsize := size_le_of_noRehash hfits hrun
  unfold System.size at hsize
  omega

/-- With `AAPL` as the only configured symbol: an item without `s` brings the empty key,
and a feed of other symbols makes the map outgrow any number of buckets. -/
theorem reservation_left : (∃ σ os,
      execute (System.step Platform.listed)
        [.receive (.objectValue [("data", .arrayValue [.nullValue])]), .message, .loop, .dequeue,
          .push] {} = some (σ, os) ∧
      σ.symbolStates.keys = [""] ∧ ¬ Reserved ["AAPL"] σ) ∧
    ∀ buckets, ∃ as σ os, execute (System.step Platform.listed) as {} = some (σ, os) ∧
      σ.scheduler = .iterating [] [] ∧
      ¬ EachStep (System.step Platform.listed) (NoRehash Platform.listed buckets) as {} := by
  refine ⟨⟨_, _, rfl, rfl, fun hreserved => ?_⟩, exists_rehash Platform.listed⟩
  exact absurd (hreserved.configured "" (by decide)) (by decide)

end TradeProcessor
