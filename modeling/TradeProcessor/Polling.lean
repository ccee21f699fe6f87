/-
  Polling.lean --- the requests of `queryPrices` and what they leave behind.

  The string stream, the root value and the request object outlive an iteration.
  The stream is emptied after a transfer that completes, and not after one that curl
  gives up; the root is replaced by the next document, and not when there is none.
  What a request should enqueue is decided by its own body alone.
-/
import TradeProcessor.FHAPI

set_option autoImplicit false

namespace TradeProcessor

open TradeProcessor.Json TradeProcessor.Library

variable {parse : String → Value → Bool × Value}

/-! ## Each request by itself -/

/-- The queue after a request whose quote is read from its own body, by a parser and a
root of its own; nothing when the quote cannot take the member `sym`. -/
def ownQuote (parse : String → Value → Bool × Value) (q : List Value) :
    String × Transfer → Option (List Value)
  | (_, .failed _) => some q
  | (symbol, .completed body) =>
      match parse body .nullValue with
      | (true, quote) =>
          (quote.assign "sym" (.stringValue symbol)).toOption.map fun item => q ++ [item]
      | (false, _) => some q

/-- The requests are kept apart.  The prefixes of the requests are all that
`queryPrices` has done at any time. -/
structure KeptApart (parse : String → Value → Bool × Value) (symbols : List String)
    (rounds : List (Nat → Transfer)) (q : List Value) : Prop where
  /-- after each request, the queue is what the requests by themselves make of it -/
  queue : ∀ rs rest, requests symbols rounds = rs ++ rest →
    outcome Poller.q (forM rs (fun r => queryPrice parse r.1 r.2) { q := q }) =
      rs.foldlM (ownQuote parse) q
  /-- where the body is a document, the text that the parser is given is one -/
  accepted : ∀ rs symbol body rest st,
    requests symbols rounds = rs ++ (symbol, .completed body) :: rest →
    forM rs (fun r => queryPrice parse r.1 r.2) { q := q } = .ok () st →
    (parse body .nullValue).1 = true → (parse (st.ss ++ body) st.completeJsonData).1 = true

/-- The body of a request that completes is a document, and the one that is read from
the stream, over the root, is the same but for the member `sym`. -/
def ReadsOwn (parse : String → Value → Bool × Value) (r : String × Transfer) (st : Poller) :
    Prop :=
  match r with
  | (_, .failed _) => True
  | (symbol, .completed body) =>
      (parse body .nullValue).1 = true ∧
        ((parse (st.ss ++ body) st.completeJsonData).2.assign "sym"
            (.stringValue symbol)).toOption =
          ((quoteIn parse body).assign "sym" (.stringValue symbol)).toOption

/-- One request that completes, from any state. -/
theorem queryPrice_completed_eq (symbol body : String) (st : Poller) :
    queryPrice parse symbol (.completed body) st =
      match (parse (st.ss ++ body) st.completeJsonData).2.assign "sym" (.stringValue symbol) with
      | .ok item => .ok () ⟨"", item, st.q ++ [item]⟩
      | .error e =>
          .error (.json e) ⟨"", (parse (st.ss ++ body) st.completeJsonData).2, st.q⟩ := by
  rw [queryPrice, bind_of_ok (modify_apply _ _), bind_of_ok (modify_apply _ _),
    bind_of_ok (modify_apply _ _), bind_of_ok (get_apply _), jsonRead]
  cases (parse (st.ss ++ body) st.completeJsonData).2.assign "sym" (.stringValue symbol) with
  | ok item =>
      rw [bind_of_ok (evaluate_ok_apply _ _ _)]
      rfl
  | error e => rw [bind_of_error (evaluate_error_apply _ _ _)]

theorem outcome_queryPrice_completed (symbol body : String) (st : Poller) :
    outcome Poller.q (queryPrice parse symbol (.completed body) st) =
      ((parse (st.ss ++ body) st.completeJsonData).2.assign "sym"
        (.stringValue symbol)).toOption.map fun item => st.q ++ [item] := by
  rw [queryPrice_completed_eq]
  cases (parse (st.ss ++ body) st.completeJsonData).2.assign "sym" (.stringValue symbol) <;> rfl

/-- A request does what it should exactly when it reads its own document. -/
theorem queryPrice_own_iff (r : String × Transfer) (st : Poller) :
    outcome Poller.q (queryPrice parse r.1 r.2 st) = ownQuote parse st.q r ↔
      ReadsOwn parse r st := by
  obtain ⟨symbol, transfer⟩ := r
  cases transfer with
  | failed streamed => exact ⟨fun _ => trivial, fun _ => rfl⟩
  | completed body =>
      have henqueue : Function.Injective fun item : Value => st.q ++ [item] := by
        intro item item' h
        simpa using h
      rw [outcome_queryPrice_completed]
      cases hparse : parse body .nullValue with
      | mk parsed quote =>
          cases parsed with
          | true =>
              simp only [ownQuote, ReadsOwn, quoteIn, hparse, true_and]
              exact (Option.map_injective henqueue).eq_iff
          | false =>
              -- Something is enqueued, or the program ends.
              simp only [ownQuote, ReadsOwn, hparse, Bool.false_eq_true, false_and, iff_false]
              intro h
              obtain ⟨item, _, hitem⟩ := Option.map_eq_some_iff.mp h
              simp at hitem

/-! ## The stream -/

/-- What is in the stream after the requests. -/
def streamText (ss : String) (rs : List (String × Transfer)) : String :=
  rs.foldl (fun ss r =>
    match r.2 with
    | .failed streamed => ss ++ streamed
    | .completed _ => "") ss

theorem ss_of_queryPrice {r : String × Transfer} {st st' : Poller}
    (h : queryPrice parse r.1 r.2 st = .ok () st') : st'.ss = streamText st.ss [r] := by
  obtain ⟨symbol, transfer⟩ := r
  cases transfer with
  | failed streamed =>
      cases h
      rfl
  | completed body =>
      rw [queryPrice_completed_eq] at h
      split at h
      · cases h
        rfl
      · cases h

theorem ss_of_forM {rs : List (String × Transfer)} {st st' : Poller}
    (h : forM rs (fun r => queryPrice parse r.1 r.2) st = .ok () st') :
    st'.ss = streamText st.ss rs := by
  induction rs generalizing st with
  | nil =>
      cases h
      rfl
  | cons r rs ih =>
      rw [List.forM_cons, seq_eq_ok_iff] at h
      obtain ⟨mid, hhead, hrest⟩ := h
      rw [ih hrest, ss_of_queryPrice hhead]
      rfl

/-- A parser that reads a document over any root: whether there is one does not depend
on the root, and a document replaces it.  Without one the root may be anything. -/
structure ReadsDocument (parse : String → Value → Bool × Value) : Prop where
  verdict : ∀ text root, (parse text root).1 = (parse text .nullValue).1
  replaces : ∀ text root, (parse text .nullValue).1 = true →
    (parse text root).2 = quoteIn parse text

/-- The body is a document, and the text in the stream before it leaves it the one that is
read, but for the member `sym`. -/
structure SameDocument (parse : String → Value → Bool × Value) (symbol ss body : String) :
    Prop where
  own : (parse body .nullValue).1 = true
  text : (parse (ss ++ body) .nullValue).1 = true
  same : ((quoteIn parse (ss ++ body)).assign "sym" (.stringValue symbol)).toOption =
    ((quoteIn parse body).assign "sym" (.stringValue symbol)).toOption

/-- With such a parser the root does not matter where the text is a document. -/
theorem sameDocument_iff (hparse : ReadsDocument parse) {symbol body : String} {st : Poller} :
    SameDocument parse symbol st.ss body ↔ ReadsOwn parse (symbol, .completed body) st ∧
      ((parse body .nullValue).1 = true →
        (parse (st.ss ++ body) st.completeJsonData).1 = true) := by
  constructor
  · rintro ⟨hbody, htext, hsame⟩
    refine ⟨⟨hbody, ?_⟩, fun _ => (hparse.verdict _ _).trans htext⟩
    rw [hparse.replaces _ _ htext]
    exact hsame
  · rintro ⟨⟨hbody, hsame⟩, haccepted⟩
    have htext : (parse (st.ss ++ body) .nullValue).1 = true :=
      (hparse.verdict _ _).symm.trans (haccepted hbody)
    rw [hparse.replaces _ _ htext] at hsame
    exact ⟨hbody, htext, hsame⟩

/-- Another document of the quote endpoint, and its value. -/
def otherDocument : String := "\x7b\"c\":370,\"t\":1700000000\x7d"

def otherQuote : Value := .objectValue [("c", .intValue 370), ("t", .intValue 1700000000)]

/-- A reader of the first document of a text, for texts that begin with one of the two;
it fails on every other, and leaves the root as it was. -/
def firstQuoteReader (text : String) (root : Value) : Bool × Value :=
  if quoteDocument.toList.isPrefixOf text.toList then (true, sampleQuote)
  else if otherDocument.toList.isPrefixOf text.toList then (true, otherQuote)
  else (false, root)

theorem firstQuoteReader_quote (rest : String) (root : Value) :
    firstQuoteReader (quoteDocument ++ rest) root = (true, sampleQuote) := by
  simp [firstQuoteReader, String.toList_append]

theorem firstQuoteReader_other (root : Value) :
    firstQuoteReader otherDocument root = (true, otherQuote) := by
  have hnot : ¬ quoteDocument.toList.isPrefixOf otherDocument.toList = true := by decide +kernel
  simp [firstQuoteReader, hnot]

theorem firstQuoteReader_none (root : Value) :
    firstQuoteReader "Too many requests" root = (false, root) := by
  have hquote : ¬ quoteDocument.toList.isPrefixOf "Too many requests".toList = true := by
    decide +kernel
  have hother : ¬ otherDocument.toList.isPrefixOf "Too many requests".toList = true := by
    decide +kernel
  simp only [firstQuoteReader, if_neg hquote, if_neg hother]

theorem firstQuoteReader_readsDocument : ReadsDocument firstQuoteReader where
  verdict := by
    intro text root
    simp only [firstQuoteReader]
    split_ifs <;> rfl
  replaces := by
    intro text root h
    simp only [firstQuoteReader, quoteIn] at h ⊢
    split_ifs at h ⊢
    · rfl
    · rfl

/-! ## All requests -/

theorem queue_iff_readsOwn {symbols : List String} {rounds : List (Nat → Transfer)}
    {q : List Value} :
    (∀ rs rest, requests symbols rounds = rs ++ rest →
      outcome Poller.q (forM rs (fun r => queryPrice parse r.1 r.2) { q := q }) =
        rs.foldlM (ownQuote parse) q) ↔
      ∀ rs r rest st, requests symbols rounds = rs ++ r :: rest →
        forM rs (fun r => queryPrice parse r.1 r.2) { q := q } = .ok () st →
        ReadsOwn parse r st := by
  have hfollows := forM_follows_iff Poller.q (ownQuote parse)
    (fun r : String × Transfer => queryPrice parse r.1 r.2) (requests symbols rounds) { q := q }
  simp only [queryPrice_own_iff] at hfollows
  exact hfollows

/-- The requests that `queryPrices` gets to, by the run that gets there. -/
theorem keptApart_iff_sameDocument (hparse : ReadsDocument parse) {symbols : List String}
    {rounds : List (Nat → Transfer)} {q : List Value} :
    KeptApart parse symbols rounds q ↔ ∀ rs symbol body rest st,
      requests symbols rounds = rs ++ (symbol, .completed body) :: rest →
      forM rs (fun r => queryPrice parse r.1 r.2) { q := q } = .ok () st →
      SameDocument parse symbol (streamText "" rs) body := by
  constructor
  · rintro ⟨hqueue, haccepted⟩ rs symbol body rest st hrs hrun
    have hss : st.ss = streamText "" rs := ss_of_forM hrun
    rw [← hss, sameDocument_iff hparse]
    exact ⟨queue_iff_readsOwn.mp hqueue rs _ rest st hrs hrun,
      haccepted rs symbol body rest st hrs hrun⟩
  · intro hsame
    have hown : ∀ rs symbol body rest st,
        requests symbols rounds = rs ++ (symbol, .completed body) :: rest →
        forM rs (fun r => queryPrice parse r.1 r.2) { q := q } = .ok () st →
        ReadsOwn parse (symbol, .completed body) st ∧ ((parse body .nullValue).1 = true →
          (parse (st.ss ++ body) st.completeJsonData).1 = true) := by
      intro rs symbol body rest st hrs hrun
      rw [← sameDocument_iff hparse, ss_of_forM hrun]
      exact hsame rs symbol body rest st hrs hrun
    refine ⟨queue_iff_readsOwn.mpr ?_, fun rs symbol body rest st hrs hrun =>
      (hown rs symbol body rest st hrs hrun).2⟩
    rintro rs ⟨symbol, transfer⟩ rest st hrs hrun
    cases transfer with
    | failed streamed => trivial
    | completed body => exact (hown rs symbol body rest st hrs hrun).1

/-- The body of a request that completes can take the member `sym`. -/
def TakesLabel (parse : String → Value → Bool × Value) : String × Transfer → Prop
  | (_, .failed _) => True
  | (symbol, .completed body) =>
      ∃ item, (quoteIn parse body).assign "sym" (.stringValue symbol) = .ok item

/-- A request that reads its own document completes when the document can take the
member. -/
theorem completes_queryPrice_iff (hparse : ReadsDocument parse) {symbol body : String}
    {st : Poller} (hsame : SameDocument parse symbol st.ss body) :
    Completes (queryPrice parse symbol (.completed body)) st ↔
      TakesLabel parse (symbol, .completed body) := by
  have hread := hsame.same
  rw [← hparse.replaces _ st.completeJsonData hsame.text] at hread
  unfold Completes TakesLabel
  rw [queryPrice_completed_eq]
  cases htext : (parse (st.ss ++ body) st.completeJsonData).2.assign "sym"
      (.stringValue symbol) <;>
    cases hown : (quoteIn parse body).assign "sym" (.stringValue symbol) <;>
    simp_all [Except.toOption]

/-- Where requests read their own documents, `queryPrices` gets past those whose
documents can take the member, and past no others. -/
theorem completes_requests_iff (hparse : ReadsDocument parse) {rs : List (String × Transfer)}
    {st : Poller} (hsame : ∀ before symbol body after,
      rs = before ++ (symbol, .completed body) :: after →
      Completes (forM before fun r => queryPrice parse r.1 r.2) st →
      (∀ r ∈ before, TakesLabel parse r) →
      SameDocument parse symbol (streamText st.ss before) body) :
    Completes (forM rs fun r => queryPrice parse r.1 r.2) st ↔ ∀ r ∈ rs, TakesLabel parse r := by
  induction rs using List.reverseRecOn with
  | nil => exact ⟨fun _ => by simp, fun _ => ⟨(), st, rfl⟩⟩
  | append_singleton rs r ih =>
      have hrest := ih fun before symbol body after hrs =>
        hsame before symbol body (after ++ [r]) (by rw [hrs]; simp)
      have hlast : ∀ mid, forM rs (fun r => queryPrice parse r.1 r.2) st = .ok () mid →
          (Completes (queryPrice parse r.1 r.2) mid ↔ TakesLabel parse r) := by
        intro mid hmid
        obtain ⟨symbol, transfer⟩ := r
        cases transfer with
        | failed streamed => exact ⟨fun _ => trivial, fun _ => ⟨(), _, rfl⟩⟩
        | completed body =>
            refine completes_queryPrice_iff hparse ?_
            rw [ss_of_forM hmid]
            exact hsame rs symbol body [] rfl ⟨(), mid, hmid⟩ (hrest.mp ⟨(), mid, hmid⟩)
      constructor
      · rintro ⟨_, st', hrun⟩ r' hr'
        obtain ⟨mid, hmid, _⟩ := seq_eq_ok_iff.mp (by rw [← List.forM_append]; exact hrun)
        rw [forM_concat_apply hmid] at hrun
        rcases List.mem_append.mp hr' with hold | hnew
        · exact hrest.mp ⟨(), mid, hmid⟩ r' hold
        · rw [List.mem_singleton.mp hnew]
          exact (hlast mid hmid).mp ⟨(), st', hrun⟩
      · intro htakes
        obtain ⟨_, mid, hmid⟩ := hrest.mpr fun r' hr' => htakes r' (by simp [hr'])
        obtain ⟨_, st', hone⟩ := (hlast mid hmid).mpr (htakes r (by simp))
        exact ⟨(), st', by rw [forM_concat_apply hmid, hone]⟩

/-- Requests are kept apart exactly when each one that completes, of those that
`queryPrices` gets to, has a document for its body, and what requests given up since
the last completed one have left in the stream does not change what is read.
`queryPrices` gets past the requests whose documents can take the member `sym`. -/
theorem kept_apart_iff (hparse : ReadsDocument parse) (symbols : List String)
    (rounds : List (Nat → Transfer)) (q : List Value) :
    KeptApart parse symbols rounds q ↔ ∀ rs symbol body rest,
      requests symbols rounds = rs ++ (symbol, .completed body) :: rest →
      (∀ r ∈ rs, TakesLabel parse r) → SameDocument parse symbol (streamText "" rs) body := by
  rw [keptApart_iff_sameDocument hparse]
  constructor
  · intro hsame rs symbol body rest hrs htakes
    have hbefore : ∀ before symbol body after,
        rs = before ++ (symbol, .completed body) :: after →
        Completes (forM before fun r => queryPrice parse r.1 r.2) ({ q := q } : Poller) →
        (∀ r ∈ before, TakesLabel parse r) →
        SameDocument parse symbol (streamText "" before) body := by
      rintro before symbol' body' after rfl ⟨_, st, hrun⟩ _
      exact hsame before symbol' body' _ st (by rw [hrs, List.append_assoc, List.cons_append])
        hrun
    obtain ⟨_, st, hrun⟩ := (completes_requests_iff hparse hbefore).mpr htakes
    exact hsame rs symbol body rest st hrs hrun
  · intro hsame rs symbol body rest st hrs hrun
    have hbefore : ∀ before symbol body after,
        rs = before ++ (symbol, .completed body) :: after →
        Completes (forM before fun r => queryPrice parse r.1 r.2) ({ q := q } : Poller) →
        (∀ r ∈ before, TakesLabel parse r) →
        SameDocument parse symbol (streamText "" before) body := by
      rintro before symbol' body' after rfl _ htakes
      exact hsame before symbol' body' _ (by rw [hrs, List.append_assoc, List.cons_append])
        htakes
    exact hsame rs symbol body rest hrs
      ((completes_requests_iff hparse hbefore).mp ⟨(), st, hrun⟩)

theorem kept_apart_iff_sample :
    KeptApart firstQuoteReader ["AAPL", "MSFT"] sampleRounds [] ↔ ∀ rs symbol body rest,
      requests ["AAPL", "MSFT"] sampleRounds = rs ++ (symbol, .completed body) :: rest →
      (∀ r ∈ rs, TakesLabel firstQuoteReader r) →
      SameDocument firstQuoteReader symbol (streamText "" rs) body :=
  kept_apart_iff firstQuoteReader_readsDocument ["AAPL", "MSFT"] sampleRounds []

/-! ## Two orders of events -/

/-- The transfer of `AAPL` is given up after its whole body; `MSFT` gets the quote. -/
def givenUp : List (Nat → Transfer) :=
  [fun i => if i = 0 then .failed quoteDocument else .completed otherDocument]

/-- The body of `MSFT` is no document; it gets the quote of `AAPL` again. -/
def noDocument : List (Nat → Transfer) :=
  [fun i => if i = 0 then .completed quoteDocument else .completed "Too many requests"]

/-- One round over two symbols. -/
theorem queryPrices_two {first second : String} {answers : Nat → Transfer} {st st' st'' : Poller}
    (h : queryPrice parse first (answers 0) st = .ok () st')
    (h' : queryPrice parse second (answers 1) st' = .ok () st'') :
    queryPrices parse [first, second] [answers] st = .ok () st'' := by
  have hrequests : requests [first, second] [answers] =
      [(first, answers 0), (second, answers 1)] := rfl
  rw [queryPrices_eq, hrequests, List.forM_cons, bind_of_ok h, List.forM_cons, bind_of_ok h']
  rfl

/-- `MSFT` is published with the price of `AAPL`, after a transfer that was given up and
after a body that is no document. -/
theorem quotes_not_kept_apart : ReadsDocument firstQuoteReader ∧
    (∃ st, queryPrices firstQuoteReader ["AAPL", "MSFT"] givenUp {} = .ok () st ∧
      st.q = [labelled "MSFT" sampleQuote]) ∧
    ¬ KeptApart firstQuoteReader ["AAPL", "MSFT"] givenUp [] ∧
    (∃ st, queryPrices firstQuoteReader ["AAPL", "MSFT"] noDocument {} = .ok () st ∧
      (st.q.map fun item => (item.member "sym", item.member "c")) =
        [(.stringValue "AAPL", .intValue 190), (.stringValue "MSFT", .intValue 190)]) ∧
    ¬ KeptApart firstQuoteReader ["AAPL", "MSFT"] noDocument [] := by
  have hgivenUp : queryPrice firstQuoteReader "AAPL" (.failed quoteDocument) {} =
      .ok () ⟨"" ++ quoteDocument, .nullValue, []⟩ := rfl
  have hcompleted : queryPrice firstQuoteReader "AAPL" (.completed quoteDocument) {} =
      .ok () ⟨"", labelled "AAPL" sampleQuote, [labelled "AAPL" sampleQuote]⟩ := by
    have hread : ∀ root, firstQuoteReader ("" ++ quoteDocument) root = (true, sampleQuote) := by
      intro root
      rw [String.empty_append, ← String.append_empty (s := quoteDocument),
        firstQuoteReader_quote]
    rw [queryPrice_completed_eq]
    simp only [hread]
    rfl
  refine ⟨firstQuoteReader_readsDocument, ?_, ?_, ?_, ?_⟩
  · have hmixed : queryPrice firstQuoteReader "MSFT" (.completed otherDocument)
        ⟨"" ++ quoteDocument, .nullValue, []⟩ =
          .ok () ⟨"", labelled "MSFT" sampleQuote, [labelled "MSFT" sampleQuote]⟩ := by
      rw [queryPrice_completed_eq]
      simp only [String.empty_append, firstQuoteReader_quote]
      rfl
    refine ⟨⟨"", labelled "MSFT" sampleQuote, [labelled "MSFT" sampleQuote]⟩, ?_, rfl⟩
    exact queryPrices_two hgivenUp hmixed
  · intro hapart
    obtain ⟨_, hsame⟩ := queue_iff_readsOwn.mp hapart.queue [("AAPL", .failed quoteDocument)]
      ("MSFT", .completed otherDocument) [] _ rfl hgivenUp
    simp only [String.empty_append, firstQuoteReader_quote, quoteIn, firstQuoteReader_other]
      at hsame
    have hprice := congrArg (Option.map fun item => (item.member "c").integer) hsame
    exact absurd hprice (by decide)
  · have hmixed : queryPrice firstQuoteReader "MSFT" (.completed "Too many requests")
        ⟨"", labelled "AAPL" sampleQuote, [labelled "AAPL" sampleQuote]⟩ =
          .ok () ⟨"", labelled "MSFT" (labelled "AAPL" sampleQuote),
            [labelled "AAPL" sampleQuote, labelled "MSFT" (labelled "AAPL" sampleQuote)]⟩ := by
      rw [queryPrice_completed_eq]
      simp only [String.empty_append, firstQuoteReader_none]
      rfl
    refine ⟨⟨"", labelled "MSFT" (labelled "AAPL" sampleQuote),
      [labelled "AAPL" sampleQuote, labelled "MSFT" (labelled "AAPL" sampleQuote)]⟩, ?_, rfl⟩
    exact queryPrices_two hcompleted hmixed
  · intro hapart
    have hlast := queue_iff_readsOwn.mp hapart.queue [("AAPL", .completed quoteDocument)]
      ("MSFT", .completed "Too many requests") [] _ rfl
      ((bind_of_ok hcompleted).trans (pure_apply _ _))
    rw [ReadsOwn, firstQuoteReader_none] at hlast
    exact absurd hlast.1 (by decide)

end TradeProcessor
