/-
  Divisions.lean --- the divisors that `computeFeatures` divides by, in doubles.

  Three calculators divide once for each entry.  `TradespersecCalc` and
  `TickImbalanceCalc` look at the divisor first; `WeightedAvgPriceCalc` divides by
  the volume summed so far, whatever it is.  So it is the volumes that decide whether
  something is divided by zero, as the machine adds them up; whether what is published
  is a number, they decide together with the sizes of the prices.
-/
import TradeProcessor.Entries
import TradeProcessor.Admission
import TradeProcessor.RoundingLaws

set_option autoImplicit false

namespace TradeProcessor

open TradeProcessor.Json TradeProcessor.Library
open SymbolState (access)
open Arithmetic (double)

/-! ## The divisor of an entry -/

section

variable {N Q : Type} [Zero N] [Zero Q] {s s' : SymbolState N Q} {entry : Nat}

/-- The time that a read through an iterator returns is still there to be read. -/
theorem access_timeOf {i : Nat} {n : Int} (h : access (Value.readInt64 "t") i s = .ok n s') :
    SameEntries s.trades s'.trades ∧ ∃ item, s'.trades[i]? = some item ∧ timeOf item = n := by
  obtain ⟨hsame, _⟩ := access_int64_frame (by simp [entryKeys]) h
  obtain ⟨item, item', hitem, hread, rfl⟩ := SymbolState.access_eq_ok_iff.mp h
  obtain ⟨_, hn, rfl⟩ := Value.readInt64_eq_ok_iff.mp hread
  have hi : i < s.trades.length := (List.getElem?_eq_some_iff.mp hitem).1
  refine ⟨hsame, item.withMember "t", List.getElem?_set_self hi, ?_⟩
  rw [← timeOf_eq hn, timeOf, timeOf, Value.member_withMember]

-- a calculator works with some of the operators only
set_option linter.unusedSectionVars false

variable [Add N] [Sub N] [Mul N] [Div N] [LT N] [DecidableLT N] [DecidableEq N] [Arithmetic N Q]

/-- `WeightedAvgPriceCalc::processEntry` always divides. -/
def WeightedAvgPriceCalc.divisor (s : SymbolState N Q) : Option N := some s.wapState.denom

/-- `TradespersecCalc::processEntry` divides unless the deque has one entry or its
ends have the same time. -/
def TradespersecCalc.divisor (s : SymbolState N Q) : Option N :=
  match s.trades.getLast?, s.trades.head? with
  | some back, some front =>
      let duration : N := double (Arithmetic.long (N := N) (timeOf back - timeOf front))
      if s.trades.length = 1 ∨ duration = 0 then none else some duration
  | _, _ => none

/-- `TickImbalanceCalc::processEntry` divides at every entry but the first, if a
tick has been counted. -/
def TickImbalanceCalc.divisor (entry : Nat) (s : SymbolState N Q) : Option N :=
  if entry = 0 then none
  else
    let total := Arithmetic.int (N := N) (s.tiState.upticks + s.tiState.downticks)
    if total > 0 then some (double total) else none

/-- The divisor of the division that a calculator has executed at an entry, by the
state it left, if it executed one. -/
def CalcType.divisor (entry : Nat) (s : SymbolState N Q) : CalcType → Option N
  | weightedAvgPriceCalc => WeightedAvgPriceCalc.divisor s
  | tradespersecCalc => TradespersecCalc.divisor s
  | tickImbalanceCalc => TickImbalanceCalc.divisor entry s
  | maxTimeGapCalc | volumeCalc | maxPriceCalc => none

/-! ### The entry publishes the quotient by its divisor -/

theorem WeightedAvgPriceCalc.publishes_quotient (h : processEntry entry s = .ok () s') :
    ∃ d, divisor s' = some d ∧
      s'.features.weightedAvgPrice = Arithmetic.quotient s'.wapState.numer d := by
  rw [processEntry, bind_eq_ok_iff] at h
  obtain ⟨v, s₁, _, h⟩ := h
  rw [bind_eq_ok_iff] at h
  obtain ⟨p, s₂, _, hwrite⟩ := h
  rw [modify_apply] at hwrite
  cases hwrite
  exact ⟨_, rfl, rfl⟩

theorem TickImbalanceCalc.publishes_quotient (h : processEntry entry s = .ok () s') :
    s'.features.tickImbalance = if entry = 0 then s.features.tickImbalance
      else (divisor entry s').elim 0 fun d => double (Arithmetic.int (N := N)
        (s'.tiState.upticks - s'.tiState.downticks)) / d := by
  rw [processEntry] at h
  split at h
  · rename_i hzero
    cases h
    rw [if_pos hzero]
  · rename_i hzero
    rw [bind_eq_ok_iff] at h
    obtain ⟨price, s₁, _, h⟩ := h
    rw [bind_eq_ok_iff] at h
    obtain ⟨prevPrice, s₂, _, hwrite⟩ := h
    rw [modify_apply] at hwrite
    cases hwrite
    rw [if_neg hzero, divisor, if_neg hzero]
    -- whatever the counters are by now, the guard and the quotient read the same ones
    have hguard : ∀ total difference : Int,
        (if total > 0 then (double difference / double total : N) else 0) =
          (if total > 0 then some (double total : N) else none).elim 0
            fun d => double difference / d := by
      intro total difference
      split <;> rfl
    exact hguard _ _

theorem TradespersecCalc.publishes_quotient (hne : s.trades ≠ [])
    (h : processEntry entry s = .ok () s') :
    s'.features.tps = (divisor s').elim 0 fun d =>
      double (Arithmetic.size (N := N) s'.trades.length) / d * double 1000 := by
  have hsize : s.trades.length ≠ 0 := by simpa using hne
  rw [processEntry, bind_of_ok (get_apply s), if_neg hsize, bind_eq_ok_iff] at h
  obtain ⟨back, s₁, hback, h⟩ := h
  rw [bind_eq_ok_iff] at h
  obtain ⟨front, s₂, hfront, hwrite⟩ := h
  rw [modify_apply] at hwrite
  cases hwrite
  obtain ⟨hsame₁, backItem₁, hbackItem₁, hbackTime⟩ := access_timeOf hback
  obtain ⟨hsame₂, frontItem, hfrontItem, hfrontTime⟩ := access_timeOf hfront
  obtain ⟨backItem, hbackItem, hacc⟩ := forall₂_getElem? hsame₂ hbackItem₁
  have hlength : s₂.trades.length = s.trades.length := (hsame₁.trans hsame₂).length_eq
  have hlast : s₂.trades.getLast? = some backItem := by
    rw [List.getLast?_eq_getElem?, hlength, hbackItem]
  have hhead : s₂.trades.head? = some frontItem := by
    rw [List.head?_eq_getElem?, hfrontItem]
  have htime : timeOf backItem = back := by rw [← timeOf_accessed hacc, hbackTime]
  simp only [divisor, hlast, hhead, htime, hfrontTime, hlength]
  split <;> rfl

end

/-! ## Sums that the machine rounds -/

/-- A sum whose every partial sum is rounded. -/
def roundedSum {α : Type} (value : α → ℚ) (l : List α) : ℚ :=
  l.foldl (fun sum a => binary64.round (sum + value a)) 0

theorem roundedSum_concat {α : Type} (value : α → ℚ) (l : List α) (a : α) :
    roundedSum value (l ++ [a]) = binary64.round (roundedSum value l + value a) := by
  simp [roundedSum]

/-- A loop that adds up doubles ends with a number exactly when every term is one and
no partial sum overflows. -/
theorem foldl_add_eq_finite_iff {α : Type} {term : α → Double} {value : α → ℚ} {l : List α}
    {r : ℚ} (hterm : ∀ a r, term a = .finite r → r = value a) :
    l.foldl (fun sum a => sum + term a) 0 = .finite r ↔
      (∀ a ∈ l, term a = .finite (value a)) ∧
      (∀ pre, pre <+: l → |roundedSum value pre| < 2 ^ 1024) ∧ r = roundedSum value l := by
  induction l using List.reverseRecOn generalizing r with
  | nil =>
      simp only [List.foldl_nil, Double.zero_eq, Double.finite.injEq, List.not_mem_nil,
        List.prefix_nil, forall_eq, false_implies, implies_true, true_and]
      simp [roundedSum, eq_comm]
  | append_singleton l a ih =>
      rw [List.foldl_append, List.foldl_cons, List.foldl_nil, Double.add_eq_finite_iff,
        roundedSum_concat]
      constructor
      · rintro ⟨x, y, hx, hy, hround⟩
        obtain ⟨hterms, hsums, rfl⟩ := ih.mp hx
        obtain rfl := hterm a y hy
        obtain ⟨hfits, rfl⟩ := Double.round_eq_finite_iff.mp hround
        refine ⟨fun b hb => ?_, fun pre hpre => ?_, rfl⟩
        · rcases List.mem_append.mp hb with hb | hb
          · exact hterms b hb
          · rw [List.mem_singleton.mp hb, hy]
        · rcases List.prefix_concat_iff.mp hpre with rfl | hpre
          · rwa [roundedSum_concat]
          · exact hsums pre hpre
      · rintro ⟨hterms, hsums, rfl⟩
        have hfits := hsums _ (List.prefix_refl _)
        rw [roundedSum_concat] at hfits
        refine ⟨_, _, ih.mpr ⟨fun b hb => hterms b (by simp [hb]),
          fun pre hpre => hsums pre (hpre.trans (List.prefix_append _ _)), rfl⟩,
          hterms a (by simp), Double.round_eq hfits⟩

namespace Window

/-- The volumes of a window, added up one after the other. -/
def roundedVolume (w : List Trade) : ℚ := roundedSum (fun x : Trade => binary64.round x.v) w

/-- The products of volume and price of a window, added up one after the other. -/
def roundedValue (w : List Trade) : ℚ :=
  roundedSum (fun x : Trade => binary64.round (binary64.round x.v * binary64.round x.p)) w

/-- The volumes are doubles, and no sum of the first of them overflows. -/
structure VolumesFit (w : List Trade) : Prop where
  volume : ∀ x ∈ w, |binary64.round x.v| < 2 ^ 1024
  sum : ∀ pre, pre <+: w → |roundedVolume pre| < 2 ^ 1024

/-- The prices are doubles, and no product with a volume overflows, nor a sum of the
first products. -/
structure ValuesFit (w : List Trade) : Prop where
  price : ∀ x ∈ w, |binary64.round x.p| < 2 ^ 1024
  product : ∀ x ∈ w, |binary64.round (binary64.round x.v * binary64.round x.p)| < 2 ^ 1024
  sum : ∀ pre, pre <+: w → |roundedValue pre| < 2 ^ 1024

/-- No prefix of the window, but the empty one, has volumes that add up to zero. -/
def NonzeroVolumes (w : List Trade) : Prop :=
  ∀ pre, pre <+: w → pre ≠ [] → VolumesFit pre → roundedVolume pre ≠ 0

/-- The window has a weighted average price that does not overflow. -/
structure HasAverage (w : List Trade) : Prop where
  volumes : VolumesFit w
  values : ValuesFit w
  nonzero : roundedVolume w ≠ 0
  average : |binary64.round (roundedValue w / roundedVolume w)| < 2 ^ 1024

theorem roundedVolume_nil : roundedVolume [] = 0 := rfl

theorem roundedVolume_concat (w : List Trade) (x : Trade) :
    roundedVolume (w ++ [x]) = binary64.round (roundedVolume w + binary64.round x.v) :=
  roundedSum_concat _ w x

/-- Every sum has been rounded. -/
theorem onGrid_roundedVolume (w : List Trade) : binary64.OnGrid (roundedVolume w) := by
  induction w using List.reverseRecOn with
  | nil => exact_mod_cast onGrid_int 0
  | append_singleton w x _ =>
      rw [roundedVolume_concat]
      exact Format.onGrid_round _

/-- Volumes that are not negative do not take a sum back to zero. -/
theorem roundedVolume_pos {x : Trade} {w : List Trade} (hw : ∀ y ∈ x :: w, 0 ≤ y.v)
    (hx : 0 < binary64.round x.v) : 0 < roundedVolume (x :: w) := by
  induction w using List.reverseRecOn with
  | nil =>
      rw [← List.nil_append [x], roundedVolume_concat, roundedVolume_nil, zero_add]
      exact Format.round_pos (Format.onGrid_round _) hx
  | append_singleton w y ih =>
      have hsum := ih fun z hz => hw z (List.mem_append_left [y] hz)
      have hy : 0 ≤ binary64.round y.v := Format.round_nonneg (hw y (by simp))
      rw [← List.cons_append, roundedVolume_concat]
      refine Format.round_pos ?_ (by linarith)
      exact (onGrid_roundedVolume _).add (Format.onGrid_round _)

/-- Among volumes that are not negative it is the first one that must not be zero. -/
theorem nonzeroVolumes_cons_iff {x : Trade} {w : List Trade} (hw : ∀ y ∈ x :: w, 0 ≤ y.v) :
    NonzeroVolumes (x :: w) ↔ binary64.round x.v ≠ 0 := by
  have hsingle : roundedVolume [x] = binary64.round (binary64.round x.v) := by
    rw [← List.nil_append [x], roundedVolume_concat, roundedVolume_nil, zero_add]
  constructor
  · intro hnonzero hzero
    have hsum : roundedVolume [x] = 0 := by rw [hsingle, hzero, Format.round_zero]
    refine hnonzero [x] (by simp) (by simp) ⟨?_, ?_⟩ hsum
    · intro y hy
      rw [List.mem_singleton.mp hy, hzero]
      norm_num
    · intro pre hpre
      rcases List.prefix_cons_iff.mp hpre with rfl | ⟨rest, rfl, hrest⟩
      · norm_num [roundedVolume_nil]
      · rw [List.prefix_nil.mp hrest, hsum]
        norm_num
  · intro hne pre hpre hnil _
    have hx : 0 < binary64.round x.v :=
      lt_of_le_of_ne (Format.round_nonneg (hw x List.mem_cons_self)) hne.symm
    obtain rfl | ⟨rest, rfl, hrest⟩ := List.prefix_cons_iff.mp hpre
    · exact absurd rfl hnil
    · have hsub := ((List.prefix_cons_inj x).mpr hrest).subset
      exact (roundedVolume_pos (fun y hy => hw y (hsub hy)) hx).ne'

/-- The volume that the passes add up is a number exactly when nothing overflows. -/
theorem foldl_volStep_eq_finite_iff {w : List Trade} {r : ℚ} :
    w.foldl Pass.volStep (0 : Double) = .finite r ↔ VolumesFit w ∧ r = roundedVolume w := by
  have hsum : w.foldl Pass.volStep (0 : Double) = .finite r ↔
      (∀ x ∈ w, Double.round x.v = .finite (binary64.round x.v)) ∧
        (∀ pre, pre <+: w → |roundedVolume pre| < 2 ^ 1024) ∧ r = roundedVolume w :=
    foldl_add_eq_finite_iff fun x r hr => (Double.round_eq_finite_iff.mp hr).2
  refine hsum.trans ⟨fun ⟨hterms, hsums, hr⟩ => ⟨⟨fun x hx => ?_, hsums⟩, hr⟩,
    fun ⟨hfits, hr⟩ => ⟨fun x hx => Double.round_eq (hfits.volume x hx), hfits.sum, hr⟩⟩
  exact (Double.round_eq_finite_iff.mp (hterms x hx)).1

/-- So is the sum of the products, where the volumes are doubles. -/
theorem foldl_value_eq_finite_iff {w : List Trade} {r : ℚ}
    (hvolume : ∀ x ∈ w, |binary64.round x.v| < 2 ^ 1024) :
    w.foldl (fun s x => s + Double.round x.v * Double.round x.p) 0 = .finite r ↔
      ValuesFit w ∧ r = roundedValue w := by
  have hproduct : ∀ (x : Trade) (r : ℚ), Double.round x.v * Double.round x.p = .finite r ↔
      |binary64.round x.v| < 2 ^ 1024 ∧ |binary64.round x.p| < 2 ^ 1024 ∧
        |binary64.round (binary64.round x.v * binary64.round x.p)| < 2 ^ 1024 ∧
        r = binary64.round (binary64.round x.v * binary64.round x.p) := by
    intro x r
    rw [Double.mul_eq_finite_iff]
    constructor
    · rintro ⟨a, b, ha, hb, hround⟩
      obtain ⟨hv, rfl⟩ := Double.round_eq_finite_iff.mp ha
      obtain ⟨hp, rfl⟩ := Double.round_eq_finite_iff.mp hb
      exact ⟨hv, hp, Double.round_eq_finite_iff.mp hround⟩
    · rintro ⟨hv, hp, hround⟩
      exact ⟨_, _, Double.round_eq hv, Double.round_eq hp, Double.round_eq_finite_iff.mpr hround⟩
  have hsum : w.foldl (fun s x => s + Double.round x.v * Double.round x.p) 0 = .finite r ↔
      (∀ x ∈ w, Double.round x.v * Double.round x.p =
        .finite (binary64.round (binary64.round x.v * binary64.round x.p))) ∧
      (∀ pre, pre <+: w → |roundedValue pre| < 2 ^ 1024) ∧ r = roundedValue w :=
    foldl_add_eq_finite_iff fun x r hr => ((hproduct x r).mp hr).2.2.2
  refine hsum.trans ⟨fun ⟨hterms, hsums, hr⟩ => ?_, fun ⟨hfits, hr⟩ => ?_⟩
  · exact ⟨⟨fun x hx => ((hproduct x _).mp (hterms x hx)).2.1,
      fun x hx => ((hproduct x _).mp (hterms x hx)).2.2.1, hsums⟩, hr⟩
  · refine ⟨fun x hx => (hproduct x _).mpr ?_, hfits.sum, hr⟩
    exact ⟨hvolume x hx, hfits.price x hx, hfits.product x hx, rfl⟩

end Window

/-! ## Divisors other than zero -/

/-- Every division that `computeFeatures` executes on the map, at every entry of every
pass, has a divisor other than zero. -/
def DividesByNonzero (m : SymbolMap Double Double) : Prop :=
  ∀ k s c i s' d, m.lookup k = some s → AtEntry s c i s' → c.divisor i s' = some d → d ≠ 0

section

variable {s s' : SymbolState Double Double} {w : List Trade} {entry : Nat}

/-- The calculators that look at their divisor never divide by zero. -/
theorem divisor_ne_zero_of_guarded {c : CalcType} {d : Double} (hc : c ≠ .weightedAvgPriceCalc)
    (hd : c.divisor entry s = some d) : d ≠ 0 := by
  cases c with
  | weightedAvgPriceCalc => exact absurd rfl hc
  | tradespersecCalc =>
      simp only [CalcType.divisor, TradespersecCalc.divisor] at hd
      split at hd
      · split at hd
        · cases hd
        · rename_i hguard
          cases hd
          exact fun hzero => hguard (.inr hzero)
      · cases hd
  | tickImbalanceCalc =>
      simp only [CalcType.divisor, TickImbalanceCalc.divisor] at hd
      split at hd
      · cases hd
      · split at hd
        · rename_i htotal
          cases hd
          -- a positive whole number is not rounded to zero
          exact Double.ne_zero_of_pos
            ((Rounded.round_pos_iff (onGrid_int _)).mpr (by exact_mod_cast htotal))
        · cases hd
  | maxTimeGapCalc | volumeCalc | maxPriceCalc => cases hd

/-- The divisor of the weighted average price. -/
theorem AtEntry.denom (hreads : ReadsAs s.trades w)
    (h : AtEntry s .weightedAvgPriceCalc entry s') :
    entry < w.length ∧ s'.wapState.denom = (w.take (entry + 1)).foldl Pass.volStep 0 := by
  obtain ⟨hi, hsums⟩ := h.wapState hreads
  refine ⟨hi, ?_⟩
  rw [hsums, Rounded.foldl_wapStep]

/-- For one symbol, it is the weighted average price that decides. -/
theorem divisors_ne_zero_iff_of_readsAs (hreads : ReadsAs s.trades w) :
    (∀ c i s' d, AtEntry s c i s' → c.divisor i s' = some d → d ≠ 0) ↔
      Window.NonzeroVolumes w := by
  constructor
  · intro hnonzero pre hpre hne hfits hzero
    obtain ⟨i, hi⟩ : ∃ i, pre.length = i + 1 :=
      Nat.exists_eq_succ_of_ne_zero (by simpa using hne)
    have htake : pre = w.take (i + 1) := by
      rw [← hi]
      exact List.prefix_iff_eq_take.mp hpre
    have hlt : i < w.length := by
      have hle := hpre.length_le
      omega
    obtain ⟨s', hentry⟩ := exists_atEntry .weightedAvgPriceCalc hreads hlt
    apply hnonzero _ i s' _ hentry rfl
    rw [(hentry.denom hreads).2, ← htake]
    exact Window.foldl_volStep_eq_finite_iff.mpr ⟨hfits, hzero.symm⟩
  · intro hvolumes c i s' d hentry hd
    by_cases hc : c = .weightedAvgPriceCalc
    · subst hc
      obtain ⟨hi, hdenom⟩ := hentry.denom hreads
      cases hd
      intro hzero
      rw [hdenom] at hzero
      obtain ⟨hfits, hsum⟩ := Window.foldl_volStep_eq_finite_iff.mp hzero
      refine hvolumes _ (List.take_prefix _ w) ?_ hfits hsum.symm
      exact List.ne_nil_of_length_pos (by rw [List.length_take]; omega)
    · exact divisor_ne_zero_of_guarded hc hd

end

/-! ## Published numbers -/

/-- None of the features is NaN or an infinity. -/
structure Features.AreNumbers (f : Features Double Double) : Prop where
  maxGap : f.maxGap.IsNumber
  vol : f.vol.IsNumber
  weightedAvgPrice : f.weightedAvgPrice.IsNumber
  maxPrice : f.maxPrice.IsNumber
  tps : f.tps.IsNumber
  tickImbalance : f.tickImbalance.IsNumber

/-- Every difference of two times is a double. -/
theorem long_isNumber (n : Int) :
    Double.IsNumber (double (Arithmetic.long (N := Double) n)) := by
  have hrange := inInt64_long_double n
  unfold InInt64 minInt64 maxInt64 at hrange
  exact ⟨_, Rounded.binary64_int (by rw [abs_le]; omega)⟩

theorem foldl_gapStep_isNumber {acc : Double × Int} (hacc : acc.1.IsNumber) (w : List Trade) :
    (w.foldl Pass.gapStep acc).1.IsNumber := by
  induction w generalizing acc with
  | nil => exact hacc
  | cons x w ih =>
      rw [List.foldl_cons]
      apply ih
      simp only [Pass.gapStep]
      split
      · exact long_isNumber _
      · exact hacc

theorem foldl_priceStep_isNumber {m : Double} (hm : m.IsNumber) {w : List Trade}
    (hw : ∀ x ∈ w, |binary64.round x.p| < 2 ^ 1024) :
    (w.foldl Pass.priceStep m).IsNumber := by
  induction w generalizing m with
  | nil => exact hm
  | cons x w ih =>
      rw [List.foldl_cons]
      refine ih ?_ fun y hy => hw y (by simp [hy])
      simp only [Pass.priceStep]
      split
      · exact ⟨_, Double.round_eq (hw x (by simp))⟩
      · exact hm

theorem tps_isNumber (w : List Trade) : Double.IsNumber (Pass.tps w) := by
  simp only [Pass.tps]
  split
  · exact ⟨0, rfl⟩
  · rename_i hguard
    have hduration : Arithmetic.long (N := Double) (Window.duration w) ≠ 0 := by
      intro hzero
      apply hguard
      rw [hzero]
      exact .inr Double.round_zero
    have hrange := inInt64_long_double (Window.duration w)
    unfold InInt64 minInt64 maxInt64 at hrange
    rcases Nat.eq_zero_or_pos (Arithmetic.size (N := Double) w.length) with hzero | hpos
    · have hround : binary64.round (Arithmetic.long (N := Double) (Window.duration w)) ≠ 0 := by
        rw [ne_eq, Format.round_eq_zero_iff (onGrid_int _)]
        exact_mod_cast hduration
      rw [hzero, double_double, double_double, double_double, Nat.cast_zero, Double.round_zero,
        Rounded.binary64_int (by rw [abs_le]; omega), Double.zero_eq,
        Double.quotient_finite _ hround, zero_div, Double.round_zero, Rounded.round_thousand,
        Double.zero_eq, Double.mul_finite, zero_mul]
      exact ⟨0, Double.round_zero⟩
    · obtain ⟨r, hr, _⟩ := Rounded.signed_rate hpos (size_double_lt w.length).le hduration
        (by rw [abs_le]; omega)
      exact ⟨r, hr⟩

theorem imbalance_isNumber (ti : TIState) : Double.IsNumber (Pass.imbalance ti) := by
  simp only [Pass.imbalance]
  split
  · rename_i htotal
    have hdifference := inInt_int_double (ti.upticks - ti.downticks)
    have hsum := inInt_int_double (ti.upticks + ti.downticks)
    unfold InInt at hdifference hsum
    exact Rounded.ratio_isNumber (by rw [abs_le]; omega) htotal (by omega)
  · exact ⟨0, rfl⟩

/-- The weighted average of a window with trades is a number, and the volume as well,
exactly when the window has one.  The quotient alone could be one by an infinite
divisor. -/
theorem average_isNumber_iff (ti : TIState) {w : List Trade} (hne : w ≠ []) :
    (Pass.features ti w : Features Double Double).vol.IsNumber ∧
        (Pass.features ti w : Features Double Double).weightedAvgPrice.IsNumber ↔
      Window.HasAverage w := by
  have hwap : (Pass.features ti w : Features Double Double).weightedAvgPrice =
      w.foldl (fun s x => s + Double.round x.v * Double.round x.p) 0 /
        w.foldl Pass.volStep (0 : Double) := by
    simp only [Pass.features, if_neg hne, quotient_double, Rounded.foldl_wapStep]
  constructor
  · rintro ⟨⟨vol, hvol⟩, average, haverage⟩
    have hdenom : w.foldl Pass.volStep (0 : Double) = .finite vol := hvol
    obtain ⟨hvolumes, rfl⟩ := Window.foldl_volStep_eq_finite_iff.mp hdenom
    rw [haverage] at hwap
    obtain ⟨⟨numer, hnumer⟩, hdivisor⟩ := Double.IsNumber.of_quotient ⟨_, hwap.symm⟩
    obtain ⟨hvalues, rfl⟩ := (Window.foldl_value_eq_finite_iff hvolumes.volume).mp hnumer
    have hnonzero : Window.roundedVolume w ≠ 0 := by
      intro hzero
      rw [hdenom, hzero] at hdivisor
      exact hdivisor rfl
    refine ⟨hvolumes, hvalues, hnonzero, ?_⟩
    rw [hnumer, hdenom, Double.quotient_finite _ hnonzero] at hwap
    exact (Double.round_eq_finite_iff.mp hwap.symm).1
  · intro hw
    have hvol := Window.foldl_volStep_eq_finite_iff.mpr ⟨hw.volumes, rfl⟩
    have hvalue := (Window.foldl_value_eq_finite_iff hw.volumes.volume).mpr ⟨hw.values, rfl⟩
    refine ⟨⟨_, hvol⟩, ?_⟩
    rw [hwap, hvalue, hvol, Double.quotient_finite _ hw.nonzero]
    exact ⟨_, Double.round_eq hw.average⟩

/-- Only the volume, the weighted average and the maximum price can be anything else
than a number, and of these the weighted average decides. -/
theorem features_areNumbers_iff (ti : TIState) (w : List Trade) :
    (Pass.features ti w : Features Double Double).AreNumbers ↔ w = [] ∨ Window.HasAverage w := by
  constructor
  · intro hnumbers
    by_cases hne : w = []
    · exact .inl hne
    · exact .inr ((average_isNumber_iff ti hne).mp ⟨hnumbers.vol, hnumbers.weightedAvgPrice⟩)
  · rintro (rfl | hw)
    · exact ⟨⟨0, rfl⟩, ⟨0, rfl⟩, ⟨0, rfl⟩, ⟨0, rfl⟩, ⟨0, rfl⟩, ⟨0, rfl⟩⟩
    · have hne : w ≠ [] := by
        rintro rfl
        exact hw.nonzero Window.roundedVolume_nil
      have hgap : (w.foldl Pass.gapStep ((0, 0) : Double × Int)).1.IsNumber :=
        foldl_gapStep_isNumber ⟨0, rfl⟩ w
      obtain ⟨hvol, hwap⟩ := (average_isNumber_iff ti hne).mpr hw
      refine ⟨hgap, hvol, hwap, foldl_priceStep_isNumber ⟨0, rfl⟩ hw.values.price, ?_, ?_⟩
      · simp only [Pass.features, if_neg hne]
        exact tps_isNumber w
      · simp only [Pass.features]
        split
        · exact ⟨0, rfl⟩
        · exact imbalance_isNumber _

/-- Every published feature of every symbol is a number. -/
def PublishesNumbers (m : SymbolMap Double Double) : Prop :=
  ∀ k s, m.lookup k = some s → s.features.AreNumbers

section

variable {P : Platform Double Double} {m m' : SymbolMap Double Double}

theorem publishes_numbers_iff
    (hm : ∀ k s, m.lookup k = some s → ReadsAs s.trades (windowOf s.trades))
    (h : computeFeatures P calcTypes m = .ok () m') :
    PublishesNumbers m' ↔ ∀ k s, m.lookup k = some s →
      s.trades = [] ∨ Window.HasAverage (windowOf s.trades) := by
  have hnil : ∀ trades : List Value, windowOf trades = [] ↔ trades = [] :=
    fun trades => List.map_eq_nil_iff
  constructor
  · intro hnumbers k s hk
    obtain ⟨trades, _, hk'⟩ := computeFeatures_pass h hk (hm k s hk)
    rw [← hnil]
    exact (features_areNumbers_iff s.tiState _).mp (hnumbers k _ hk')
  · intro haverage k s' hk'
    have hact := computeFeatures_eq_ok h k
    cases hk : m.lookup k with
    | none =>
        rw [hk] at hact
        have hnone : m'.lookup k = none := hact
        rw [hnone] at hk'
        cases hk'
    | some s =>
        obtain ⟨trades, _, hs'⟩ := computeFeatures_pass h hk (hm k s hk)
        rw [hk'] at hs'
        cases hs'
        have hw := haverage k s hk
        rw [← hnil] at hw
        exact (features_areNumbers_iff s.tiState _).mpr hw

/-- A reachable map without poisoned entries is readable. -/
theorem Reachable.readsAs_windowOf (h : Reachable P m)
    (hclean : ∀ k s, m.lookup k = some s → ∀ item ∈ s.trades, poisoned item = false) :
    ∀ k s, m.lookup k = some s → ReadsAs s.trades (windowOf s.trades) := by
  intro k s hk
  obtain ⟨w, hw⟩ := completes_computeSymbol_iff.mp
    ((completes_computeSymbol_of_reachable h hk).mpr (hclean k s hk))
  rw [← hw.eq_windowOf]
  exact hw

/-- No division by zero, exactly as long as no volumes at the front of a window add up to
zero.  Whether every published feature is a number, the whole windows decide: their
volumes and their products with the prices add up without overflow, the volumes not to
zero, and the quotient does not overflow. -/
theorem divisors_nonzero_iff (h : Reachable P m)
    (hclean : ∀ k s, m.lookup k = some s → ∀ item ∈ s.trades, poisoned item = false) :
    (DividesByNonzero m ↔
      ∀ k s, m.lookup k = some s → Window.NonzeroVolumes (windowOf s.trades)) ∧
    ∃ m', computeFeatures P calcTypes m = .ok () m' ∧
      (PublishesNumbers m' ↔ ∀ k s, m.lookup k = some s →
        s.trades = [] ∨ Window.HasAverage (windowOf s.trades)) := by
  have hreads := h.readsAs_windowOf hclean
  constructor
  · constructor
    · intro hnonzero k s hk
      exact (divisors_ne_zero_iff_of_readsAs (hreads k s hk)).mp
        fun c i s' d => hnonzero k s c i s' d hk
    · intro hvolumes k s c i s' d hk
      exact (divisors_ne_zero_iff_of_readsAs (hreads k s hk)).mpr (hvolumes k s hk) c i s' d
  · obtain ⟨m', hm'⟩ := completes_of_readable (P := P) fun k s hk => ⟨_, hreads k s hk⟩
    exact ⟨m', hm', publishes_numbers_iff hreads hm'⟩

end

/-! ### One trade -/

/-- The platform of concrete runs in doubles. -/
def Platform.listedDoubles : Platform Double Double where
  realText := fun _ => "real"
  visit := fun m => m.keys
  visit_perm := fun _ => List.Perm.refl _

/-- One trade of `A`, of the price 10. -/
def soleTrade (v : ℚ) : Value := feedItem "A" 1900000 v 10

/-- The map that it leads to. -/
theorem soleTrade_run {v : ℚ} (hv : 0 ≤ v) (hv' : v ≤ 100) :
    ∃ m : SymbolMap Double Double,
      run Platform.listedDoubles [.ingest (soleTrade v) 2000000000000] ∅ = .ok () m ∧
      (∃ s, m.lookup "A" = some s) ∧
      ∀ k s, m.lookup k = some s → k = "A" ∧ s.trades = [soleTrade v] := by
  have hwf : WellFormed (soleTrade v) := wellFormed_feedItem "A" _ hv (by norm_num)
  have hint : ∃ n, ((soleTrade v).member "v").asInt64 = .ok n :=
    asInt64_of_asDouble (x := v) rfl fun x hx => by
      obtain rfl : v = x := Option.some.inj hx
      exact ⟨by norm_num [minInt64]; linarith, by norm_num [maxInt64]; linarith⟩
  have hadm : Admissible Platform.listedDoubles (soleTrade v) := ⟨rfl, ⟨_, rfl⟩, ⟨_, rfl⟩, hint⟩
  have hsymbol : symbolOf Platform.listedDoubles (soleTrade v) = some "A" := rfl
  obtain ⟨m, hrun, hself, hother⟩ :=
    processItem_of_admissible 2000000000000 hadm hsymbol stampedMap_empty
  have htrades : ∀ s, m.lookup "A" = some s → s.trades = [soleTrade v] := by
    intro s hs
    rw [hself] at hs
    cases hs
    have htime : timeOf (soleTrade v) = 1900000 := rfl
    have hfresh : cutoffMs 2000000000000 ≤ timeOf (soleTrade v) := by
      rw [htime]
      decide
    rw [ingested, hwf.admitted_eq]
    exact expire_cons_of_le timeOf hfresh []
  refine ⟨m, ?_, ⟨_, hself⟩, fun k s hk => ?_⟩
  · rw [run_singleton_eq_ok_iff, Event.apply_ingest_eq_ok_iff]
    exact ⟨_, hrun⟩
  · by_cases hkA : k = "A"
    · subst hkA
      exact ⟨rfl, htrades s hk⟩
    · rw [hother k hkA] at hk
      cases hk

theorem divisors_nonzero_iff_sole_trade : ∃ m : SymbolMap Double Double,
    run Platform.listedDoubles [.ingest (soleTrade 2) 2000000000000] ∅ = .ok () m ∧
    (DividesByNonzero m ↔
      ∀ k s, m.lookup k = some s → Window.NonzeroVolumes (windowOf s.trades)) ∧
    ∃ m', computeFeatures Platform.listedDoubles calcTypes m = .ok () m' ∧
      (PublishesNumbers m' ↔ ∀ k s, m.lookup k = some s →
        s.trades = [] ∨ Window.HasAverage (windowOf s.trades)) := by
  obtain ⟨m, hrun, _, htrades⟩ := soleTrade_run (v := 2) (by norm_num) (by norm_num)
  refine ⟨m, hrun, divisors_nonzero_iff ⟨_, hrun⟩ fun k s hk item hitem => ?_⟩
  rw [(htrades k s hk).2, List.mem_singleton] at hitem
  rw [hitem]
  rfl

/-- A trade of no volume divides zero by zero, and that is what is published. -/
theorem zero_volume_divides : ∃ m m' s',
    run Platform.listedDoubles [.ingest (soleTrade 0) 2000000000000] ∅ = .ok () m ∧
    WellFormed (soleTrade 0) ∧ ¬ DividesByNonzero m ∧
    computeFeatures Platform.listedDoubles calcTypes m = .ok () m' ∧
    m'.lookup "A" = some s' ∧ s'.features.weightedAvgPrice = .nan := by
  obtain ⟨m, hrun, ⟨s, hs⟩, htrades⟩ := soleTrade_run (v := 0) le_rfl (by norm_num)
  have hreads : ∀ k s, m.lookup k = some s → ReadsAs s.trades [⟨1900000, 0, 10⟩] := by
    intro k s hk
    rw [(htrades k s hk).2]
    exact .cons (reads_feedItem "A" 1900000 0 10) .nil
  obtain ⟨m', hm'⟩ := completes_of_readable (P := Platform.listedDoubles)
    fun k s hk => ⟨_, hreads k s hk⟩
  obtain ⟨trades, _, hs'⟩ := computeFeatures_pass hm' hs (hreads "A" s hs)
  have hvolume : binary64.round (0 : ℚ) = 0 := Format.round_zero
  refine ⟨m, m', _, hrun, wellFormed_feedItem "A" _ le_rfl (by norm_num), ?_, hm', hs', ?_⟩
  · intro hnonzero
    have hvolumes := (divisors_ne_zero_iff_of_readsAs (hreads "A" s hs)).mp
      fun c i s' d => hnonzero "A" s c i s' d hs
    exact (Window.nonzeroVolumes_cons_iff (by simp)).mp hvolumes hvolume
  · have hprice : Double.round 10 = .finite 10 := by
      exact_mod_cast Rounded.binary64_of_isDouble
        (Rounded.isDouble_int (n := 10) (by norm_num))
    have hzero : (0 : Double) + 0 = 0 := by
      rw [Double.zero_eq, Double.add_finite, add_zero, Double.round_zero, Double.zero_eq]
    simp only [SymbolState.passed, Pass.features, List.foldl_cons, List.foldl_nil, Pass.wapStep,
      double_double, Double.round_zero, hprice, quotient_double]
    have hproduct : (0 : Double) * .finite 10 = 0 := by
      rw [Double.zero_eq, Double.mul_finite, zero_mul, Double.round_zero, Double.zero_eq]
    rw [hproduct, hzero, if_neg (by simp), Double.zero_eq, Double.quotient_zero]
    rfl

end TradeProcessor
