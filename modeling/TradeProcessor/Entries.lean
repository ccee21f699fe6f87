/-
  Entries.lean --- inside a computation, entry by entry.

  Some questions about `computeFeatures` are not about what it leaves behind but
  about every step on the way: which divisor an entry divides by, how far a counter
  has come.  `AtEntry` is the state right after a calculator has processed an entry:
  what its pass makes of the prefix of the window, after the passes before it.
-/
import TradeProcessor.Published

set_option autoImplicit false

namespace TradeProcessor

open TradeProcessor.Json TradeProcessor.Library

/-- The calculators whose passes come before the pass of `c`. -/
def CalcType.before (c : CalcType) : List CalcType := calcTypes.takeWhile (· ≠ c)

section

variable {N Q : Type} [Zero N] [Zero Q] [Add N] [Sub N] [Mul N] [Div N] [LT N] [DecidableLT N]
  [DecidableEq N] [Arithmetic N Q] {s s' : SymbolState N Q} {w : List Trade} {c : CalcType}
  {i : Nat}

/-- While `computeFeatures` works on a symbol in the state `s`, the calculator `c` has
just processed the entry `i` and left `s'`. -/
def AtEntry (s : SymbolState N Q) (c : CalcType) (i : Nat) (s' : SymbolState N Q) : Prop :=
  ∃ mid, passes c.before s.resetFeatures = .ok () mid ∧ i < mid.trades.length ∧
    forRange (i + 1) c.processEntry mid = .ok () s'

/-- The deque that the pass of a calculator goes over, and the sums it starts from. -/
theorem passes_before (c : CalcType) (hreads : ReadsAs s.trades w) :
    ∃ mid, passes c.before s.resetFeatures = .ok () mid ∧ ReadsAs mid.trades w ∧
      mid = { allPasses w c.before s.resetFeatures with trades := mid.trades } := by
  obtain ⟨trades, hsame, hrun⟩ := passes_pass (s := s.resetFeatures) c.before hreads
  exact ⟨_, hrun, hreads.sameEntries hsame, rfl⟩

/-- Over a readable deque an entry leaves what its pass has made of the entries so
far. -/
theorem AtEntry.upTo (hreads : ReadsAs s.trades w) (h : AtEntry s c i s') :
    i < w.length ∧ s' =
      { c.upTo w (i + 1) (allPasses w c.before s.resetFeatures) with trades := s'.trades } := by
  obtain ⟨mid, hbefore, hi, hentries⟩ := h
  obtain ⟨mid', hbefore', hreads', hmid⟩ := passes_before c hreads
  rw [hbefore] at hbefore'
  cases hbefore'
  rw [hreads'.length_eq] at hi
  obtain ⟨trades, _, hrun⟩ := c.entries_ok hreads' (n := i + 1) (by omega)
  have heq : EStateM.Result.ok () s' = .ok () _ := hentries.symm.trans hrun
  cases heq
  refine ⟨hi, ?_⟩
  rw [hmid, c.upTo_trades]

/-- Every entry of a readable deque is reached. -/
theorem exists_atEntry (c : CalcType) (hreads : ReadsAs s.trades w) (hi : i < w.length) :
    ∃ s', AtEntry s c i s' := by
  obtain ⟨mid, hbefore, hreads', _⟩ := passes_before c hreads
  obtain ⟨trades, _, hrun⟩ := c.entries_ok hreads' (n := i + 1) (by omega)
  exact ⟨_, mid, hbefore, by rwa [hreads'.length_eq], hrun⟩

/-- The running sums of the weighted average price. -/
theorem AtEntry.wapState (hreads : ReadsAs s.trades w)
    (h : AtEntry s .weightedAvgPriceCalc i s') :
    i < w.length ∧ s'.wapState = (w.take (i + 1)).foldl Pass.wapStep {} := by
  obtain ⟨hi, hs'⟩ := h.upTo hreads
  refine ⟨hi, ?_⟩
  rw [hs']
  rfl

/-- The tick counters, which no pass before resets. -/
theorem AtEntry.tiState (hreads : ReadsAs s.trades w) (h : AtEntry s .tickImbalanceCalc i s') :
    i < w.length ∧
      s'.tiState = (adjacent (w.take (i + 1))).foldl (Pass.tickStep N) s.tiState := by
  obtain ⟨hi, hs'⟩ := h.upTo hreads
  refine ⟨hi, ?_⟩
  rw [hs']
  rfl

/-- The pass of the tick imbalance comes after passes that have read every entry. -/
theorem AtEntry.readable (h : AtEntry s .tickImbalanceCalc i s') : ∃ w, ReadsAs s.trades w := by
  obtain ⟨mid, hbefore, _⟩ := h
  exact readable_of_passes (s := s.resetFeatures) hbefore

end

end TradeProcessor
