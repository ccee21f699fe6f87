/-
  EntrySpec.lean --- the effects of single entries.

  While the worker writes to the deque there are no whole passes over one window, but
  an entry still does what its calculator does over the trades that it looks at.  Here
  is how such effects follow on each other where no member of the deque is missing.
-/
import TradeProcessor.Independence

set_option autoImplicit false

namespace TradeProcessor

open TradeProcessor.Json TradeProcessor.Library

variable {s : SymbolState} {w : List Trade} {i : Nat}

theorem CalcType.trades_effect (c : CalcType) (w : List Trade) (s : SymbolState) :
    (c.effect w s).trades = s.trades := (calcFootprints w).frame_rest c s

/-- That writes nothing but fields of the calculator where no member is missing. -/
theorem CalcType.processEntry_of_full (c : CalcType) (hreads : ReadsAs s.trades w)
    (hfull : Full s.trades) (hi : i < w.length) :
    c.processEntry i s = .ok () (c.effect (c.glance w i) s) := by
  obtain ⟨trades, hsame, hrun⟩ := c.processEntry_spec hreads hi
  have htrades : trades = (c.effect (c.glance w i) s).trades := by
    rw [hsame.eq_of_full hfull, c.trades_effect]
  rw [hrun, htrades]

theorem CalcType.effect_nil (c : CalcType) (s : SymbolState) : c.effect [] s = s := by
  rw [← c.pass_eq_effect, c.pass_nil]

/-- For a calculator that looks at one entry, one entry more is one glance more. -/
theorem CalcType.effect_concat {c : CalcType} (hc : c.single = true) (w : List Trade) (x : Trade)
    (s : SymbolState) : c.effect (w ++ [x]) s = c.effect [x] (c.effect w s) := by
  simp only [← CalcType.pass_eq_effect, c.pass_concat hc]

end TradeProcessor
