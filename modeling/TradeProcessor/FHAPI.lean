/-
  FHAPI.lean --- `FHAPI.cpp`: the quote producer, and the consumer of its items.

  `queryPrices` asks for one quote after the other and enqueues what the parser
  makes of the answers, each with the symbol added under the key `sym`.  The
  consumer of the queue is `process`, which reads the members `s`, `t`, `v` and,
  in the calculators, `p`.  `Delivered` says what the consumer needs of an item for
  a quote to count; the file decides which items of `queryPrices` have it.

  A transfer that curl gives up raises a curlpp exception, which is caught; what
  was streamed before stays in the string stream.
-/
import TradeProcessor.Arrivals
import TradeProcessor.WSSession

set_option autoImplicit false

namespace TradeProcessor

open TradeProcessor.Json TradeProcessor.Library

/-! ## The producer -/

/-- How a transfer ends. -/
inductive Transfer where
  | completed (body : String)
  /-- curl gave up, with this much already written to the stream -/
  | failed (streamed : String)

/-- The locals of `queryPrices` that outlive a request, and the queue. -/
structure Poller where
  ss : String := ""
  completeJsonData : Value := .nullValue
  q : List Value := []

/-- One request of `queryPrices`. -/
def queryPrice (parse : String → Value → Bool × Value) (symbol : String) :
    Transfer → Action Fault Poller Unit
  | .failed streamed => modify fun st => { st with ss := st.ss ++ streamed }
  | .completed body => do
      modify fun st => { st with ss := st.ss ++ body }
      modify fun st => { st with completeJsonData := (parse st.ss st.completeJsonData).2 }
      modify fun st => { st with ss := "" }
      let st ← get
      let completeJsonData ← jsonRead (st.completeJsonData.assign "sym" (.stringValue symbol))
      set { st with completeJsonData := completeJsonData }
      modify fun st => { st with q := st.q ++ [st.completeJsonData] }

/-- `queryPrices`, for the rounds of its endless loop so far; a round is what the
transfers of its requests come to, by index. -/
def queryPrices (parse : String → Value → Bool × Value) (symbols : List String)
    (rounds : List (Nat → Transfer)) : Action Fault Poller Unit :=
  forM rounds fun answers =>
    forM symbols.zipIdx fun r => queryPrice parse r.1 (answers r.2)

/-- The requests in order, each with its symbol. -/
def requests (symbols : List String) (rounds : List (Nat → Transfer)) :
    List (String × Transfer) :=
  rounds.flatMap fun answers => symbols.zipIdx.map fun r => (r.1, answers r.2)

/-- The texts that the parser is given, each with the symbol of its request. -/
def documents (ss : String) : List (String × Transfer) → List (String × String)
  | [] => []
  | (_, .failed streamed) :: rest => documents (ss ++ streamed) rest
  | (symbol, .completed body) :: rest => (symbol, ss ++ body) :: documents "" rest

/-- The quote that the parser makes of a text. -/
def quoteIn (parse : String → Value → Bool × Value) (text : String) : Value :=
  (parse text .nullValue).2

/-- The quote with its symbol, as it is enqueued. -/
def labelled (symbol : String) (quote : Value) : Value :=
  (quote.withMember "sym").setMember "sym" (.stringValue symbol)

/-- An object of the quote endpoint: a numeric price `c`, an integer time `t`, and
no `s`. -/
structure Quote (quote : Value) : Prop where
  c : ∃ c, (quote.member "c").number = some c
  t : ∃ t, (quote.member "t").integer = some t
  s : quote.hasMember "s" = false

/-- The text is a document with a quote: the parser replaces the root by it. -/
structure QuoteText (parse : String → Value → Bool × Value) (text : String) : Prop where
  parsed : ∀ root, parse text root = (true, quoteIn parse text)
  quote : Quote (quoteIn parse text)

section Producer

variable {parse : String → Value → Bool × Value}

theorem queryPrices_eq (symbols : List String) (rounds : List (Nat → Transfer)) :
    queryPrices parse symbols rounds =
      forM (requests symbols rounds) fun r => queryPrice parse r.1 r.2 := by
  have hround : ∀ (rs : List (String × Nat)) (answers : Nat → Transfer),
      forM (rs.map fun r => (r.1, answers r.2)) (fun r => queryPrice parse r.1 r.2) =
        forM rs fun r => queryPrice parse r.1 (answers r.2) := by
    intro rs answers
    induction rs with
    | nil => rfl
    | cons r rs ih => rw [List.map_cons, List.forM_cons, List.forM_cons, ih]
  unfold queryPrices requests
  induction rounds with
  | nil => rfl
  | cons answers rounds ih =>
      rw [List.forM_cons, List.flatMap_cons, List.forM_append, hround, ih]

theorem Quote.subscriptable {quote : Value} (h : Quote quote) : quote.subscriptable = true := by
  have ht : quote.hasMember "t" = true := by
    apply Value.hasMember_of_member_ne
    intro hnull
    obtain ⟨t, ht⟩ := h.t
    rw [hnull] at ht
    cases ht
  exact Value.subscriptable_of_hasMember ht

/-- A request that completes with a quote enqueues it with its symbol. -/
theorem queryPrice_completed (symbol : String) {body : String} (st : Poller)
    (htext : QuoteText parse (st.ss ++ body)) :
    ∃ st', queryPrice parse symbol (.completed body) st = .ok () st' ∧ st'.ss = "" ∧
      st'.q = st.q ++ [labelled symbol (quoteIn parse (st.ss ++ body))] := by
  refine ⟨⟨"", labelled symbol (quoteIn parse (st.ss ++ body)),
    st.q ++ [labelled symbol (quoteIn parse (st.ss ++ body))]⟩, ?_, rfl, rfl⟩
  have hassign := Value.assign_of_subscriptable htext.quote.subscriptable "sym"
    (.stringValue symbol)
  rw [queryPrice, bind_of_ok (modify_apply _ _), bind_of_ok (modify_apply _ _),
    bind_of_ok (modify_apply _ _), bind_of_ok (get_apply _), htext.parsed, jsonRead, hassign,
    bind_of_ok (evaluate_ok_apply _ _ _)]
  rfl

/-- A run of requests whose texts are quotes enqueues them, in order. -/
theorem queryPrice_run {rs : List (String × Transfer)} (st : Poller)
    (htexts : ∀ r ∈ documents st.ss rs, QuoteText parse r.2) :
    ∃ st', forM rs (fun r => queryPrice parse r.1 r.2) st = .ok () st' ∧
      st'.q = st.q ++
        (documents st.ss rs).map fun r => labelled r.1 (quoteIn parse r.2) := by
  induction rs generalizing st with
  | nil => exact ⟨st, rfl, by simp [documents]⟩
  | cons r rs ih =>
      obtain ⟨symbol, transfer⟩ := r
      rw [List.forM_cons]
      cases transfer with
      | failed streamed =>
          obtain ⟨st', hrun, hq⟩ := ih { st with ss := st.ss ++ streamed } htexts
          exact ⟨st', by rw [queryPrice, bind_of_ok (modify_apply _ _), hrun], hq⟩
      | completed body =>
          obtain ⟨mid, hhead, hss, hmid⟩ :=
            queryPrice_completed symbol st (htexts (symbol, st.ss ++ body) (by simp [documents]))
          obtain ⟨st', hrun, hq⟩ := ih mid fun r hr =>
            htexts r (by rw [hss] at hr; simp [documents, hr])
          refine ⟨st', by rw [bind_of_ok hhead, hrun], ?_⟩
          rw [hq, hmid, hss, documents, List.map_cons, List.append_assoc, List.singleton_append]

/-- Nothing is parsed exactly when no transfer completes. -/
theorem documents_eq_nil_iff {rs : List (String × Transfer)} (ss : String) :
    documents ss rs = [] ↔ ∀ r ∈ rs, ∃ streamed, r.2 = .failed streamed := by
  induction rs generalizing ss with
  | nil => simp [documents]
  | cons r rs ih =>
      obtain ⟨symbol, transfer⟩ := r
      cases transfer with
      | failed streamed => simp [documents, ih]
      | completed body => simp [documents]

end Producer

/-! ## The consumer -/

variable {P : Platform}

/-- The consumer treats the item as a quote of the symbol: `process` appends it to
the deque of that symbol, the members that `process` and the calculators read are
there, its `t` is in milliseconds, and an iteration whose cutoff the quote is not
older than keeps it. -/
structure Delivered (P : Platform) (symbol : String) (quote item : Value) : Prop where
  appended : ∀ m, ∃ item', pushItem P item m = .ok (item', symbol) (m.pushed symbol item')
  fields : ∀ key ∈ ["s", "p", "v"], item.hasMember key = true
  milliseconds : timeOf item = 1000 * timeOf quote
  survives : ∀ m now, Reachable P m → cutoffMs now ≤ 1000 * timeOf quote →
    ∃ item' m', processItem P now item m = .ok item' m' ∧ item' ∈ held (m'.lookup symbol)

/-- The item is lost: its symbol is under a key that nobody reads, so `process` can
only append it to the deque of the empty key, and its time is in seconds. -/
structure Stranded (P : Platform) (symbol : String) (quote item : Value) : Prop where
  mislabelled : item.member "sym" = .stringValue symbol
  unlabelled : item.hasMember "s" = false
  seconds : timeOf item = timeOf quote
  emptyKey : ∀ m now item' m', StampedMap m → processItem P now item m = .ok item' m' →
    held (m'.lookup "") =
      expire timeOf (cutoffMs now) (held (m.lookup "") ++ [item']) ∧
    ∀ k, k ≠ "" → m'.lookup k = m.lookup k

theorem timeOf_admitted (item : Value) : timeOf (admitted item) = timeOf item := by
  simp [timeOf]

/-- What the agreement amounts to for the item alone. -/
theorem delivered_iff {symbol : String} {quote item : Value} :
    Delivered P symbol quote item ↔ Admissible P item ∧ symbolOf P item = some symbol ∧
      (∀ key ∈ ["s", "p", "v"], item.hasMember key = true) ∧
      timeOf item = 1000 * timeOf quote := by
  constructor
  · intro h
    obtain ⟨item', hpush⟩ := h.appended ∅
    obtain ⟨hadm, hsymbol, _, _⟩ := pushItem_eq_ok hpush
    exact ⟨hadm, hsymbol, h.fields, h.milliseconds⟩
  · rintro ⟨hadm, hsymbol, hfields, htime⟩
    refine ⟨fun m => ⟨_, pushItem_of_admissible hadm hsymbol m⟩, hfields, htime, ?_⟩
    intro m now hm hcutoff
    obtain ⟨m', hrun, hself, _⟩ := processItem_of_admissible now hadm hsymbol hm.stamped
    refine ⟨_, m', hrun, ?_⟩
    rw [hself]
    -- The item is at the back and not expired, so eviction stops before it.
    have hkeep : admitted item ∈ unexpired timeOf (cutoffMs now)
        (((m.lookup symbol).getD {}).trades ++ [admitted item]) := by
      rw [unexpired, List.mem_filter, timeOf_admitted, htime]
      exact ⟨by simp, by simpa using hcutoff⟩
    rw [← unexpired_expire] at hkeep
    exact List.mem_of_mem_filter hkeep

theorem hasMember_labelled {symbol : String} {quote : Value} {key : String}
    (hkey : key ≠ "sym") :
    (labelled symbol quote).hasMember key = quote.hasMember key := by
  rw [labelled, Value.hasMember_setMember_ne hkey, Value.hasMember_withMember_ne hkey]

theorem member_labelled {symbol : String} {quote : Value} {key : String} (hkey : key ≠ "sym") :
    (labelled symbol quote).member key = quote.member key := by
  rw [labelled, Value.member_setMember_ne hkey, Value.member_withMember]

theorem member_of_not_hasMember {key : String} {v : Value} (h : v.hasMember key = false) :
    v.member key = .nullValue := by
  by_contra hne
  rw [Value.hasMember_of_member_ne hne] at h
  cases h

theorem symbolOf_labelled {symbol : String} {quote : Value} (h : Quote quote) :
    symbolOf P (labelled symbol quote) = some "" := by
  rw [symbolOf_eq_some_iff]
  constructor
  · rw [labelled, Value.subscriptable_setMember, Value.subscriptable_withMember]
    exact h.subscriptable
  · rw [member_labelled (by decide), member_of_not_hasMember h.s]
    rfl

/-- The key `sym` is not the key `s`: every quote is lost. -/
theorem stranded_labelled (symbol : String) {quote : Value} (h : Quote quote) :
    Stranded P symbol quote (labelled symbol quote) where
  mislabelled := by
    unfold labelled
    exact Value.member_setMember_self (Value.hasMember_withMember_self h.subscriptable _) _
  unlabelled := by
    rw [hasMember_labelled (by decide)]
    exact h.s
  seconds := by
    unfold timeOf
    rw [member_labelled (by decide)]
  emptyKey := by
    intro m now item' m' hm hrun
    have hadm := admissible_of_processItem hrun
    obtain ⟨m₁, hrun₁, hself, hother⟩ :=
      processItem_of_admissible now hadm (symbolOf_labelled h) hm
    rw [hrun] at hrun₁
    cases hrun₁
    exact ⟨by rw [hself]; rfl, hother⟩

theorem Stranded.not_delivered {symbol : String} {quote item : Value}
    (h : Stranded P symbol quote item) :
    ¬ Delivered P symbol quote item := by
  intro hdelivered
  have hs := hdelivered.fields "s" (by simp)
  rw [h.unlabelled] at hs
  cases hs

/-! ## Both ends -/

/-- The two ends of the queue agree on no quote.  Whatever the symbols and the
answers, `queryPrices` enqueues one item for each text it parses; the consumer
treats all of them as quotes of their symbols exactly when there is none, and every
one there is gets lost. -/
theorem quotes_delivered_iff (P : Platform) {parse : String → Value → Bool × Value}
    {symbols : List String} {rounds : List (Nat → Transfer)} (q : List Value)
    (hquotes : ∀ r ∈ documents "" (requests symbols rounds), QuoteText parse r.2) :
    ∃ st, queryPrices parse symbols rounds { q := q } = .ok () st ∧
      st.q = q ++ (documents "" (requests symbols rounds)).map
        (fun r => labelled r.1 (quoteIn parse r.2)) ∧
      ((∀ r ∈ documents "" (requests symbols rounds),
          Delivered P r.1 (quoteIn parse r.2) (labelled r.1 (quoteIn parse r.2))) ↔
        ∀ r ∈ requests symbols rounds, ∃ streamed, r.2 = .failed streamed) ∧
      ∀ r ∈ documents "" (requests symbols rounds),
        Stranded P r.1 (quoteIn parse r.2) (labelled r.1 (quoteIn parse r.2)) := by
  obtain ⟨st, hrun, hq⟩ := queryPrice_run { q := q } hquotes
  have hstranded : ∀ r ∈ documents "" (requests symbols rounds),
      Stranded P r.1 (quoteIn parse r.2) (labelled r.1 (quoteIn parse r.2)) :=
    fun r hr => stranded_labelled r.1 (hquotes r hr).quote
  refine ⟨st, by rw [queryPrices_eq, hrun], hq, ?_, hstranded⟩
  rw [← documents_eq_nil_iff ""]
  constructor
  · intro hall
    apply List.eq_nil_iff_forall_not_mem.mpr
    intro r hr
    exact (hstranded r hr).not_delivered (hall r hr)
  · intro hnil r hr
    rw [hnil] at hr
    cases hr

/-- A document of the quote endpoint. -/
def quoteDocument : String := "\x7b\"c\":190,\"t\":1700000000\x7d"

/-- Its value. -/
def sampleQuote : Value := .objectValue [("c", .intValue 190), ("t", .intValue 1700000000)]

/-- A reader that knows this document, and fails on every other. -/
def quoteReader (text : String) (root : Value) : Bool × Value :=
  if text = quoteDocument then (true, sampleQuote) else (false, root)

theorem quoteText_quoteDocument : QuoteText quoteReader quoteDocument where
  parsed := by
    intro root
    simp [quoteReader, quoteIn]
  quote := by
    have hquote : quoteIn quoteReader quoteDocument = sampleQuote := by
      simp [quoteReader, quoteIn]
    rw [hquote]
    exact ⟨⟨190, rfl⟩, ⟨1700000000, rfl⟩, rfl⟩

/-- Two rounds over two symbols, of which one transfer fails. -/
def sampleRounds : List (Nat → Transfer) :=
  [fun _ => .completed quoteDocument,
    fun i => if i = 0 then .failed "" else .completed quoteDocument]

theorem documents_sampleRounds : documents "" (requests ["AAPL", "MSFT"] sampleRounds) =
    [("AAPL", quoteDocument), ("MSFT", quoteDocument), ("MSFT", quoteDocument)] := by
  simp [requests, sampleRounds, documents]

theorem quotes_delivered_iff_sample : ∃ st,
    queryPrices quoteReader ["AAPL", "MSFT"] sampleRounds { q := [] } = .ok () st ∧
    st.q = [] ++ (documents "" (requests ["AAPL", "MSFT"] sampleRounds)).map
      (fun r => labelled r.1 (quoteIn quoteReader r.2)) ∧
    ((∀ r ∈ documents "" (requests ["AAPL", "MSFT"] sampleRounds),
        Delivered Platform.listed r.1 (quoteIn quoteReader r.2)
          (labelled r.1 (quoteIn quoteReader r.2))) ↔
      ∀ r ∈ requests ["AAPL", "MSFT"] sampleRounds, ∃ streamed, r.2 = .failed streamed) ∧
    ∀ r ∈ documents "" (requests ["AAPL", "MSFT"] sampleRounds),
      Stranded Platform.listed r.1 (quoteIn quoteReader r.2)
        (labelled r.1 (quoteIn quoteReader r.2)) := by
  apply quotes_delivered_iff Platform.listed []
  intro r hr
  rw [documents_sampleRounds] at hr
  simp only [List.mem_cons, List.not_mem_nil, or_false] at hr
  rcases hr with rfl | rfl | rfl <;> exact quoteText_quoteDocument

/-- A quote of `AAPL`, a minute old when it is dequeued, goes to the deque of the
empty key and is evicted at once. -/
theorem quote_stranded : ∃ st item' m',
    queryPrices quoteReader ["AAPL"] [fun _ => .completed quoteDocument] {} = .ok () st ∧
    st.q = [labelled "AAPL" sampleQuote] ∧
    processItem Platform.listed 1700000060000000000 (labelled "AAPL" sampleQuote) ∅ =
      .ok item' m' ∧
    cutoffMs 1700000060000000000 ≤ 1000 * timeOf sampleQuote ∧
    m'.lookup "AAPL" = none ∧ held (m'.lookup "") = [] ∧
    ¬ Delivered Platform.listed "AAPL" sampleQuote (labelled "AAPL" sampleQuote) := by
  have hquote : Quote sampleQuote := ⟨⟨190, rfl⟩, ⟨1700000000, rfl⟩, rfl⟩
  have hstranded := stranded_labelled (P := Platform.listed) "AAPL" hquote
  have htext : QuoteText quoteReader ("" ++ quoteDocument) := by
    rw [String.empty_append]
    exact quoteText_quoteDocument
  obtain ⟨st, hrun, _, hq⟩ := queryPrice_completed "AAPL" {} htext
  have hcompletes : Completes
      (processItem Platform.listed 1700000060000000000 (labelled "AAPL" sampleQuote)) ∅ := by
    decide +kernel
  obtain ⟨item', m', hprocess⟩ := hcompletes
  have hadm := admissible_of_processItem hprocess
  obtain ⟨m₁, hprocess₁, hself, hother⟩ :=
    processItem_of_admissible _ hadm (symbolOf_labelled hquote) stampedMap_empty
  rw [hprocess₁] at hprocess
  cases hprocess
  refine ⟨st, _, _, ?_, ?_, hprocess₁, by decide +kernel, ?_, ?_, hstranded.not_delivered⟩
  · rw [queryPrices_eq]
    exact bind_of_ok hrun
  · rw [hq, String.empty_append]
    simp [quoteIn, quoteReader]
  · rw [hother "AAPL" (by decide)]
    rfl
  · rw [hself]
    rfl

end TradeProcessor
