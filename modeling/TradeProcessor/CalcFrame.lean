/-
  CalcFrame.lean --- what a completed calculator pass says about the deque.

  `Passes` starts from a readable deque.  Here nothing is assumed about the
  entries: a pass that completes has converted every member it reads, and has
  left the entries the same.  Together with `Passes` this decides exactly which
  deques a pass completes on, in any arithmetic.
-/
import TradeProcessor.Passes

set_option autoImplicit false

namespace TradeProcessor

open TradeProcessor.Json TradeProcessor.Library
open TradeProcessor.Json.Value (Accessed)
open SymbolState (access)

/-- The entry can be subscripted and its member converts. -/
def Converts {α : Type} (as : Value → Except LogicError α) (key : String) (item : Value) :
    Prop :=
  item.subscriptable = true ∧ ∃ a, as (item.member key) = .ok a

/-- `t` reads as an int64. -/
abbrev HasTime : Value → Prop := Converts Value.asInt64 "t"

/-- `v` reads as a double. -/
abbrev HasVolume : Value → Prop := Converts Value.asDouble "v"

/-- `p` reads as a double. -/
abbrev HasPrice : Value → Prop := Converts Value.asDouble "p"

theorem exists_reads_iff {item : Value} :
    (∃ x, Reads item x) ↔ HasTime item ∧ HasVolume item ∧ HasPrice item := by
  constructor
  · rintro ⟨x, hsub, ht, hv, hp⟩
    exact ⟨⟨hsub, _, ht⟩, ⟨hsub, _, hv⟩, ⟨hsub, _, hp⟩⟩
  · rintro ⟨⟨hsub, t, ht⟩, ⟨_, v, hv⟩, ⟨_, p, hp⟩⟩
    exact ⟨⟨t, v, p⟩, hsub, ht, hv, hp⟩

/-- A deque reads as some window as soon as each of its entries does. -/
theorem exists_readsAs {trades : List Value}
    (h : ∀ item ∈ trades, HasTime item ∧ HasVolume item ∧ HasPrice item) :
    ∃ w, ReadsAs trades w := by
  induction trades with
  | nil => exact ⟨[], .nil⟩
  | cons item rest ih =>
      obtain ⟨x, hx⟩ := exists_reads_iff.mpr (h item (by simp))
      obtain ⟨w, hw⟩ := ih fun item' hitem' => h item' (by simp [hitem'])
      exact ⟨x :: w, .cons hx hw⟩

theorem ReadsAs.readable {trades : List Value} {w : List Trade} (h : ReadsAs trades w) :
    ∀ item ∈ trades, HasTime item ∧ HasVolume item ∧ HasPrice item := by
  intro item hitem
  obtain ⟨i, hi⟩ := List.mem_iff_getElem?.mp hitem
  obtain ⟨x, _, hx⟩ := forall₂_getElem? h hi
  exact exists_reads_iff.mp ⟨x, hx⟩

theorem converts_accessed_iff {α : Type} {as : Value → Except LogicError α} {key : String}
    {keys : List String} {a b : Value} (h : Accessed keys a b) :
    Converts as key b ↔ Converts as key a := by
  unfold Converts
  rw [h.subscriptable, h.member]

section

variable {N Q : Type} [Zero N] [Zero Q] {s s' : SymbolState N Q} {i : Nat}

/-! ## One entry -/

section OneEntry

/-- A completed access converted the member and left the entries the same. -/
theorem access_frame {α : Type} {as : Value → Except LogicError α}
    {read : Value → Except LogicError (Value × α)} {key : String} {a : α}
    (hread : ∀ item item' a, read item = .ok (item', a) →
      item.subscriptable = true ∧ as (item.member key) = .ok a ∧ item' = item.withMember key)
    (hkey : key ∈ entryKeys) (h : access read i s = .ok a s') :
    SameEntries s.trades s'.trades ∧
      ∃ item, s.trades[i]? = some item ∧ Converts as key item := by
  obtain ⟨item, item', hitem, hok, rfl⟩ := SymbolState.access_eq_ok_iff.mp h
  obtain ⟨hsub, hconv, rfl⟩ := hread item item' a hok
  exact ⟨sameEntries_set (SameEntries.refl _) hitem hkey, item, hitem, hsub, a, hconv⟩

theorem access_int64_frame {key : String} {n : Int} (hkey : key ∈ entryKeys)
    (h : access (Value.readInt64 key) i s = .ok n s') :
    SameEntries s.trades s'.trades ∧
      ∃ item, s.trades[i]? = some item ∧ Converts Value.asInt64 key item :=
  access_frame (fun _ _ _ hok => Value.readInt64_eq_ok_iff.mp hok) hkey h

theorem access_double_frame {key : String} {x : ℚ} (hkey : key ∈ entryKeys)
    (h : access (Value.readDouble key) i s = .ok x s') :
    SameEntries s.trades s'.trades ∧
      ∃ item, s.trades[i]? = some item ∧ Converts Value.asDouble key item :=
  access_frame (fun _ _ _ hok => Value.readDouble_eq_ok_iff.mp hok) hkey h

-- a calculator works with some of the operators only
set_option linter.unusedSectionVars false

variable [Add N] [Sub N] [Mul N] [Div N] [LT N] [DecidableLT N] [DecidableEq N] [Arithmetic N Q]

theorem MaxTimeGapCalc.processEntry_frame (h : processEntry i s = .ok () s') :
    SameEntries s.trades s'.trades ∧ ∃ item, s.trades[i]? = some item ∧ HasTime item := by
  rw [processEntry, bind_eq_ok_iff] at h
  obtain ⟨ts, s₁, hread, hwrite⟩ := h
  obtain ⟨hsame, hitem⟩ := access_int64_frame (by simp [entryKeys]) hread
  rw [modify_apply] at hwrite
  cases hwrite
  refine ⟨?_, hitem⟩
  dsimp only
  split <;> exact hsame

theorem VolumeCalc.processEntry_frame (h : processEntry i s = .ok () s') :
    SameEntries s.trades s'.trades ∧ ∃ item, s.trades[i]? = some item ∧ HasVolume item := by
  rw [processEntry, bind_eq_ok_iff] at h
  obtain ⟨v, s₁, hread, hwrite⟩ := h
  obtain ⟨hsame, hitem⟩ := access_double_frame (by simp [entryKeys]) hread
  rw [modify_apply] at hwrite
  cases hwrite
  exact ⟨hsame, hitem⟩

theorem WeightedAvgPriceCalc.processEntry_frame (h : processEntry i s = .ok () s') :
    SameEntries s.trades s'.trades := by
  rw [processEntry, bind_eq_ok_iff] at h
  obtain ⟨v, s₁, hv, h⟩ := h
  rw [bind_eq_ok_iff] at h
  obtain ⟨p, s₂, hp, hwrite⟩ := h
  rw [modify_apply] at hwrite
  cases hwrite
  exact (access_double_frame (by simp [entryKeys]) hv).1.trans
    (access_double_frame (by simp [entryKeys]) hp).1

theorem MaxPriceCalc.processEntry_frame (h : processEntry i s = .ok () s') :
    SameEntries s.trades s'.trades ∧ ∃ item, s.trades[i]? = some item ∧ HasPrice item := by
  rw [processEntry, bind_eq_ok_iff] at h
  obtain ⟨p, s₁, hread, hwrite⟩ := h
  obtain ⟨hsame, hitem⟩ := access_double_frame (by simp [entryKeys]) hread
  rw [modify_apply] at hwrite
  cases hwrite
  refine ⟨?_, hitem⟩
  split <;> exact hsame

theorem TradespersecCalc.processEntry_frame (h : processEntry i s = .ok () s') :
    SameEntries s.trades s'.trades := by
  rw [processEntry, bind_of_ok (get_apply s)] at h
  split at h
  · cases h
    exact SameEntries.refl _
  · rw [bind_eq_ok_iff] at h
    obtain ⟨back, s₁, hback, h⟩ := h
    rw [bind_eq_ok_iff] at h
    obtain ⟨front, s₂, hfront, hwrite⟩ := h
    rw [modify_apply] at hwrite
    cases hwrite
    exact (access_int64_frame (by simp [entryKeys]) hback).1.trans
      (access_int64_frame (by simp [entryKeys]) hfront).1

theorem TickImbalanceCalc.processEntry_frame (h : processEntry i s = .ok () s') :
    SameEntries s.trades s'.trades := by
  rw [processEntry] at h
  split at h
  · cases h
    exact SameEntries.refl _
  · rw [bind_eq_ok_iff] at h
    obtain ⟨price, s₁, hprice, h⟩ := h
    rw [bind_eq_ok_iff] at h
    obtain ⟨prevPrice, s₂, hprev, hwrite⟩ := h
    have hsame := (access_double_frame (by simp [entryKeys]) hprice).1.trans
      (access_double_frame (by simp [entryKeys]) hprev).1
    rw [modify_apply] at hwrite
    cases hwrite
    dsimp only
    split
    · exact hsame
    · split <;> exact hsame

end OneEntry

/-- A pass that converts a member of the entry it is at converts that member of
every entry. -/
theorem Calc.process_converts {α : Type} {as : Value → Except LogicError α} {key : String}
    {body : Nat → Action Fault (SymbolState N Q) Unit}
    (hbody : ∀ i s s', body i s = .ok () s' → SameEntries s.trades s'.trades ∧
      ∃ item, s.trades[i]? = some item ∧ Converts as key item)
    (h : Calc.process body s = .ok () s') : ∀ item ∈ s.trades, Converts as key item := by
  rw [Calc.process, bind_of_ok (get_apply s)] at h
  have hall := (forRange_preserves
    (fun n s' => SameEntries s.trades s'.trades ∧
      ∀ i, i < n → ∀ item, s.trades[i]? = some item → Converts as key item)
    ⟨SameEntries.refl _, by omega⟩ (fun n _ mid mid' hinv hrun => ?_) h).2
  · intro item hitem
    obtain ⟨i, hi⟩ := List.mem_iff_getElem?.mp hitem
    exact hall i (List.getElem?_eq_some_iff.mp hi).1 item hi
  · obtain ⟨hsame, hpre⟩ := hinv
    obtain ⟨hsame', item', hitem', hconv⟩ := hbody n mid mid' hrun
    refine ⟨hsame.trans hsame', fun i hi item hitem => ?_⟩
    rcases Nat.lt_succ_iff_lt_or_eq.mp hi with hlt | rfl
    · exact hpre i hlt item hitem
    · obtain ⟨b, hb, hacc⟩ := forall₂_getElem? hsame hitem
      rw [hitem'] at hb
      cases hb
      exact (converts_accessed_iff hacc).mp hconv

/-! ## Any calculator -/

variable [Add N] [Sub N] [Mul N] [Div N] [LT N] [DecidableLT N] [DecidableEq N] [Arithmetic N Q]

/-- Every completed entry leaves the entries the same. -/
theorem CalcType.processEntry_sameEntries (c : CalcType)
    (h : c.processEntry i s = .ok () s') : SameEntries s.trades s'.trades := by
  cases c with
  | maxTimeGapCalc => exact (MaxTimeGapCalc.processEntry_frame h).1
  | volumeCalc => exact (VolumeCalc.processEntry_frame h).1
  | weightedAvgPriceCalc => exact WeightedAvgPriceCalc.processEntry_frame h
  | maxPriceCalc => exact (MaxPriceCalc.processEntry_frame h).1
  | tradespersecCalc => exact TradespersecCalc.processEntry_frame (i := i) h
  | tickImbalanceCalc => exact TickImbalanceCalc.processEntry_frame h

/-! ## Whole passes -/

theorem CalcType.entries_sameEntries (c : CalcType) {n : Nat}
    (h : forRange n c.processEntry s = .ok () s') : SameEntries s.trades s'.trades :=
  forRange_preserves (fun _ s' => SameEntries s.trades s'.trades) (SameEntries.refl _)
    (fun _ _ _ _ hinv hrun => hinv.trans (c.processEntry_sameEntries hrun)) h

/-- Every completed pass leaves the entries the same. -/
theorem CalcType.process_sameEntries (c : CalcType) (h : c.process s = .ok () s') :
    SameEntries s.trades s'.trades := by
  rw [process, Calc.process, bind_of_ok (get_apply s)] at h
  exact c.entries_sameEntries h

theorem MaxTimeGapCalc.process_hasTime (h : CalcType.maxTimeGapCalc.process s = .ok () s') :
    ∀ item ∈ s.trades, HasTime item :=
  Calc.process_converts (fun _ _ _ h => MaxTimeGapCalc.processEntry_frame h) h

theorem VolumeCalc.process_hasVolume (h : CalcType.volumeCalc.process s = .ok () s') :
    ∀ item ∈ s.trades, HasVolume item :=
  Calc.process_converts (fun _ _ _ h => VolumeCalc.processEntry_frame h) h

theorem MaxPriceCalc.process_hasPrice (h : CalcType.maxPriceCalc.process s = .ok () s') :
    ∀ item ∈ s.trades, HasPrice item :=
  Calc.process_converts (fun _ _ _ h => MaxPriceCalc.processEntry_frame h) h

end

end TradeProcessor
