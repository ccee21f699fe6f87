/-
  Passes.lean --- what one entry and what a whole pass of each calculator computes.

  A calculator goes over a readable deque and looks at a part of the window at each
  entry; what a pass does to everything but the deque is a fold over the window.  The
  induction of every pass is over the positions of the deque: after so many entries the
  state is what the fold makes of the prefix, over a deque whose entries have at most
  gained null members.  This is so in any arithmetic.
-/
import TradeProcessor.Window

set_option autoImplicit false

namespace TradeProcessor

open TradeProcessor.Json TradeProcessor.Library
open TradeProcessor.Json.Value (Accessed)
open SymbolState (access)
open Arithmetic (double quotient)

/-! ## The deque -/

/-- The members that the calculators read. -/
def entryKeys : List String := ["t", "v", "p"]

/-- The deque after some accesses to its entries. -/
def SameEntries (trades trades' : List Value) : Prop :=
  List.Forall₂ (Accessed entryKeys) trades trades'

theorem SameEntries.refl (trades : List Value) : SameEntries trades trades :=
  List.forall₂_same.mpr fun a _ => Accessed.refl entryKeys a

theorem SameEntries.trans {as bs cs : List Value} (hab : SameEntries as bs)
    (hbc : SameEntries bs cs) : SameEntries as cs :=
  forall₂_trans (S := Accessed entryKeys) (T := Accessed entryKeys)
    (fun _ _ _ => Accessed.trans) hab hbc

theorem SameEntries.length_eq {as bs : List Value} (h : SameEntries as bs) :
    bs.length = as.length := (List.Forall₂.length_eq h).symm

/-- Where an entry of the later deque comes from. -/
theorem SameEntries.exists_source {as bs : List Value} (h : SameEntries as bs) {b : Value}
    (hb : b ∈ bs) : ∃ a ∈ as, Accessed entryKeys a b := by
  obtain ⟨i, hi⟩ := List.mem_iff_getElem?.mp hb
  obtain ⟨a, ha, hab⟩ := forall₂_getElem? (List.Forall₂.flip h) hi
  exact ⟨a, List.mem_of_getElem? ha, hab⟩

/-- What became of an entry of the earlier deque. -/
theorem SameEntries.exists_target {as bs : List Value} (h : SameEntries as bs) {a : Value}
    (ha : a ∈ as) : ∃ b ∈ bs, Accessed entryKeys a b := by
  obtain ⟨i, hi⟩ := List.mem_iff_getElem?.mp ha
  obtain ⟨b, hb, hab⟩ := forall₂_getElem? h hi
  exact ⟨b, List.mem_of_getElem? hb, hab⟩

/-- Every entry already has the members that the calculators read. -/
def Full (trades : List Value) : Prop :=
  ∀ item ∈ trades, ∀ key ∈ entryKeys, item.hasMember key = true

theorem SameEntries.eq_of_full {trades trades' : List Value} (h : SameEntries trades trades')
    (hfull : Full trades) : trades' = trades :=
  eq_of_forall₂ h fun item hitem _ hacc => hacc.eq_self (hfull item hitem)

/-- The deque reads as the window. -/
def ReadsAs (trades : List Value) (w : List Trade) : Prop := List.Forall₂ Reads trades w

theorem Reads.accessed {keys : List String} {a b : Value} {x : Trade} (h : Reads a x)
    (hab : Accessed keys a b) : Reads b x where
  subscriptable := hab.subscriptable.trans h.subscriptable
  t := by rw [hab.member]; exact h.t
  v := by rw [hab.member]; exact h.v
  p := by rw [hab.member]; exact h.p

theorem ReadsAs.sameEntries {trades trades' : List Value} {w : List Trade}
    (h : ReadsAs trades w) (hsame : SameEntries trades trades') : ReadsAs trades' w := by
  have hflip : List.Forall₂ (fun b a => Accessed entryKeys a b) trades' trades := hsame.flip
  exact forall₂_trans (S := Reads) (T := Reads)
    (fun _ _ _ hacc hreads => hreads.accessed hacc) hflip h

theorem ReadsAs.length_eq {trades : List Value} {w : List Trade} (h : ReadsAs trades w) :
    trades.length = w.length := List.Forall₂.length_eq h

theorem ReadsAs.getElem? {trades : List Value} {w : List Trade} (h : ReadsAs trades w)
    {i : Nat} {x : Trade} (hx : w[i]? = some x) :
    ∃ item, trades[i]? = some item ∧ Reads item x := by
  have hflip : List.Forall₂ (fun x item => Reads item x) w trades := List.Forall₂.flip h
  exact forall₂_getElem? hflip hx

/-! ## One read -/

/-- An access with a key of `entryKeys` leaves the entries the same. -/
theorem sameEntries_set {trades trades' : List Value} (h : SameEntries trades trades')
    {i : Nat} {item : Value} (hitem : trades'[i]? = some item) {key : String}
    (hkey : key ∈ entryKeys) : SameEntries trades (trades'.set i (item.withMember key)) := by
  refine forall₂_set h fun a b _ hb hab => ?_
  have hbi : b = item := Option.some.inj (hb.symm.trans hitem)
  subst hbi
  exact hab.trans (Accessed.withMember hkey b)

section

variable {N Q : Type} [Zero N] [Zero Q]

section OneRead

variable {trades : List Value} {w : List Trade} {s : SymbolState N Q} {i : Nat} {x : Trade}

/-- A read through an iterator inside a readable deque. -/
theorem access_of_reads {α : Type} {read : Value → Except LogicError (Value × α)}
    {key : String} {a : α} (hkey : key ∈ entryKeys)
    (hitems : ∀ item, Reads item x → read item = .ok (item.withMember key, a))
    (hreads : ReadsAs trades w) (hsame : SameEntries trades s.trades) (hx : w[i]? = some x) :
    ∃ trades', SameEntries trades trades' ∧
      access read i s = .ok a { s with trades := trades' } := by
  obtain ⟨item, hitem, hread⟩ := (hreads.sameEntries hsame).getElem? hx
  exact ⟨_, sameEntries_set hsame hitem hkey, SymbolState.access_ok hitem (hitems item hread)⟩

theorem access_t (hreads : ReadsAs trades w) (hsame : SameEntries trades s.trades)
    (hx : w[i]? = some x) :
    ∃ trades', SameEntries trades trades' ∧
      access (Value.readInt64 "t") i s = .ok x.t { s with trades := trades' } :=
  access_of_reads (by simp [entryKeys])
    (fun _ h => Value.readInt64_ok h.subscriptable h.t) hreads hsame hx

theorem access_v (hreads : ReadsAs trades w) (hsame : SameEntries trades s.trades)
    (hx : w[i]? = some x) :
    ∃ trades', SameEntries trades trades' ∧
      access (Value.readDouble "v") i s = .ok x.v { s with trades := trades' } :=
  access_of_reads (by simp [entryKeys])
    (fun _ h => Value.readDouble_ok h.subscriptable h.v) hreads hsame hx

theorem access_p (hreads : ReadsAs trades w) (hsame : SameEntries trades s.trades)
    (hx : w[i]? = some x) :
    ∃ trades', SameEntries trades trades' ∧
      access (Value.readDouble "p") i s = .ok x.p { s with trades := trades' } :=
  access_of_reads (by simp [entryKeys])
    (fun _ h => Value.readDouble_ok h.subscriptable h.p) hreads hsame hx

end OneRead

/-! ## Passes as folds -/

variable [Add N] [Sub N] [Mul N] [Div N] [LT N] [DecidableLT N] [DecidableEq N] [Arithmetic N Q]

namespace Pass

/-- One entry of the time gap pass: the widest gap so far and the time of the
previous entry. -/
def gapStep (acc : N × Int) (x : Trade) : N × Int :=
  let gap : N := double (Arithmetic.long (N := N) (x.t - acc.2))
  (if gap > acc.1 ∧ acc.2 > 0 then gap else acc.1, x.t)

/-- One entry of the volume pass. -/
def volStep (vol : N) (x : Trade) : N := vol + double x.v

/-- One entry of the weighted average pass. -/
def wapStep (acc : WAPState N) (x : Trade) : WAPState N :=
  ⟨acc.numer + double x.v * double x.p, acc.denom + double x.v⟩

/-- One entry of the maximum price pass. -/
def priceStep (m : N) (x : Trade) : N := if double x.p > m then double x.p else m

/-- One pair of neighbours in the tick pass. -/
def tickStep (N : Type) {Q : Type} [Zero N] [Sub N] [LT N] [DecidableLT N] [Arithmetic N Q]
    (ti : TIState) (q : Trade × Trade) : TIState :=
  let priceChange : N := double q.2.p - double q.1.p
  if priceChange > 0 then { ti with upticks := Arithmetic.int (N := N) (ti.upticks + 1) }
  else if priceChange < 0 then
    { ti with downticks := Arithmetic.int (N := N) (ti.downticks + 1) }
  else ti

/-- Trades per second of a window. -/
def tps (w : List Trade) : N :=
  let duration : N := double (Arithmetic.long (N := N) (Window.duration w))
  if w.length = 1 ∨ duration = 0 then 0
  else double (Arithmetic.size (N := N) w.length) / duration * double 1000

/-- The ratio that the counters give. -/
def imbalance (ti : TIState) : N :=
  let total := Arithmetic.int (N := N) (ti.upticks + ti.downticks)
  let difference := Arithmetic.int (N := N) (ti.upticks - ti.downticks)
  if total > 0 then double difference / double total else 0

end Pass

/-- What a whole pass of a calculator does to everything but the deque. -/
def CalcType.pass (w : List Trade) (s : SymbolState N Q) : CalcType → SymbolState N Q
  | maxTimeGapCalc =>
      let acc := w.foldl Pass.gapStep (s.features.maxGap, s.maxGapState.prevTime)
      { s with features.maxGap := acc.1, maxGapState.prevTime := acc.2 }
  | volumeCalc => { s with features.vol := w.foldl Pass.volStep s.features.vol }
  | weightedAvgPriceCalc =>
      let acc := w.foldl Pass.wapStep s.wapState
      { s with
        wapState := acc
        features.weightedAvgPrice :=
          if w = [] then s.features.weightedAvgPrice else quotient acc.numer acc.denom }
  | maxPriceCalc => { s with features.maxPrice := w.foldl Pass.priceStep s.features.maxPrice }
  | tradespersecCalc => { s with features.tps := if w = [] then s.features.tps else Pass.tps w }
  | tickImbalanceCalc =>
      let ti := (adjacent w).foldl (Pass.tickStep N) s.tiState
      { s with
        tiState := ti
        features.tickImbalance :=
          if w.length < 2 then s.features.tickImbalance else Pass.imbalance ti }

/-- What the first `n` entries of a pass do; every entry of `TradespersecCalc` looks at
the whole window. -/
def CalcType.upTo (w : List Trade) (n : Nat) (s : SymbolState N Q) (c : CalcType) :
    SymbolState N Q :=
  match c with
  | tradespersecCalc => if n = 0 then s else c.pass w s
  | c => c.pass (w.take n) s

/-- The trades that `processEntry` looks at. -/
def CalcType.glance (w : List Trade) (i : Nat) : CalcType → List Trade
  | tradespersecCalc => w
  | tickImbalanceCalc => (w.take (i + 1)).drop (i - 1)
  | maxTimeGapCalc | volumeCalc | weightedAvgPriceCalc | maxPriceCalc => (w.take (i + 1)).drop i

/-- The calculator looks at the entry it is at and at no other. -/
def CalcType.single : CalcType → Bool
  | tradespersecCalc | tickImbalanceCalc => false
  | _ => true

variable {s : SymbolState N Q} {w : List Trade} {i : Nat}

theorem take_drop_single {x : Trade} (hx : w[i]? = some x) : (w.take (i + 1)).drop i = [x] := by
  rw [take_succ_of_getElem? hx, List.drop_append_of_le_length (by
    have hlt := (List.getElem?_eq_some_iff.mp hx).1
    rw [List.length_take]
    omega)]
  simp

theorem take_drop_pair {x y : Trade} (hx : w[i]? = some x) (hy : w[i + 1]? = some y) :
    (w.take (i + 2)).drop i = [x, y] := by
  rw [take_succ_of_getElem? hy, List.drop_append_of_le_length (by
    have hlt := (List.getElem?_eq_some_iff.mp hy).1
    rw [List.length_take]
    omega), take_drop_single hx]
  rfl

theorem glance_single {c : CalcType} (hc : c.single = true) {x : Trade} (hx : w[i]? = some x) :
    c.glance w i = [x] := by
  cases c with
  | tradespersecCalc | tickImbalanceCalc => cases hc
  | _ => exact take_drop_single hx

/-! ## One entry -/

section OneEntry

variable {trades trades' : List Value} {x y : Trade}

theorem MaxTimeGapCalc.processEntry_ok
    (ht : access (Value.readInt64 "t") i s = .ok x.t { s with trades := trades }) :
    processEntry i s = .ok ()
      { CalcType.pass [x] s .maxTimeGapCalc with trades := trades } := by
  rw [processEntry, bind_of_ok ht, modify_apply]
  simp only [CalcType.pass, List.foldl_cons, List.foldl_nil, Pass.gapStep]
  split <;> rfl

theorem VolumeCalc.processEntry_ok
    (hv : access (Value.readDouble "v") i s = .ok x.v { s with trades := trades }) :
    processEntry i s = .ok () { CalcType.pass [x] s .volumeCalc with trades := trades } := by
  rw [processEntry, bind_of_ok hv, modify_apply]
  rfl

theorem WeightedAvgPriceCalc.processEntry_ok
    (hv : access (Value.readDouble "v") i s = .ok x.v { s with trades := trades })
    (hp : access (Value.readDouble "p") i { s with trades := trades } =
      .ok x.p { s with trades := trades' }) :
    processEntry i s = .ok ()
      { CalcType.pass [x] s .weightedAvgPriceCalc with trades := trades' } := by
  rw [processEntry, bind_of_ok hv, bind_of_ok hp, modify_apply]
  rfl

theorem MaxPriceCalc.processEntry_ok
    (hp : access (Value.readDouble "p") i s = .ok x.p { s with trades := trades }) :
    processEntry i s = .ok () { CalcType.pass [x] s .maxPriceCalc with trades := trades } := by
  rw [processEntry, bind_of_ok hp, modify_apply]
  simp only [CalcType.pass, List.foldl_cons, List.foldl_nil, Pass.priceStep]
  split <;> rfl

/-- Every entry writes the same value, which the whole window decides. -/
theorem TradespersecCalc.processEntry_ok (hlength : s.trades.length = w.length)
    (hfirst : w[0]? = some x) (hlast : w[w.length - 1]? = some y)
    (hback : access (Value.readInt64 "t") (w.length - 1) s = .ok y.t { s with trades := trades })
    (hfront : access (Value.readInt64 "t") 0 { s with trades := trades } =
      .ok x.t { s with trades := trades' }) :
    processEntry i s =
      .ok () { CalcType.pass w s .tradespersecCalc with trades := trades' } := by
  have hne : w ≠ [] := by
    rintro rfl
    cases hfirst
  have hsize : w.length ≠ 0 := by simpa using hne
  rw [processEntry, bind_of_ok (get_apply s)]
  simp only [hlength, if_neg hsize]
  rw [bind_of_ok hback, bind_of_ok hfront, modify_apply]
  simp only [CalcType.pass, if_neg hne, Pass.tps, Window.duration_eq hfirst hlast]

theorem TickImbalanceCalc.processEntry_succ
    (hp : access (Value.readDouble "p") (i + 1) s = .ok y.p { s with trades := trades })
    (hprev : access (Value.readDouble "p") i { s with trades := trades } =
      .ok x.p { s with trades := trades' }) :
    processEntry (i + 1) s = .ok ()
      { CalcType.pass [x, y] s .tickImbalanceCalc with trades := trades' } := by
  rw [processEntry, if_neg (Nat.succ_ne_zero i), bind_of_ok hp, Nat.add_sub_cancel,
    bind_of_ok hprev, modify_apply]
  simp only [CalcType.pass, adjacent_cons_cons, adjacent_singleton, List.foldl_cons,
    List.foldl_nil, Pass.tickStep, Pass.imbalance, List.length_cons, List.length_nil]
  split
  · rfl
  · split <;> rfl

end OneEntry

theorem CalcType.pass_trades (c : CalcType) (w : List Trade) (s : SymbolState N Q)
    (trades : List Value) :
    c.pass w { s with trades := trades } = { c.pass w s with trades := trades } := by
  cases c <;> rfl

theorem CalcType.upTo_trades (c : CalcType) (w : List Trade) (n : Nat) (s : SymbolState N Q)
    (trades : List Value) :
    c.upTo w n { s with trades := trades } = { c.upTo w n s with trades := trades } := by
  cases c with
  | tradespersecCalc =>
      simp only [upTo]
      split <;> rfl
  | _ => rfl

theorem CalcType.pass_nil (c : CalcType) (s : SymbolState N Q) : c.pass [] s = s := by
  cases c <;> rfl

/-- Over a readable deque `processEntry` completes; it does what the calculator does
over the trades it looks at, and leaves the entries the same. -/
theorem CalcType.processEntry_pass (c : CalcType) (hreads : ReadsAs s.trades w)
    (hi : i < w.length) : ∃ trades, SameEntries s.trades trades ∧
      c.processEntry i s = .ok () { c.pass (c.glance w i) s with trades := trades } := by
  have hx : w[i]? = some w[i] := List.getElem?_eq_getElem hi
  cases c with
  | maxTimeGapCalc =>
      obtain ⟨trades, hsame, ht⟩ := access_t hreads (SameEntries.refl _) hx
      rw [glance_single rfl hx]
      exact ⟨trades, hsame, MaxTimeGapCalc.processEntry_ok ht⟩
  | volumeCalc =>
      obtain ⟨trades, hsame, hv⟩ := access_v hreads (SameEntries.refl _) hx
      rw [glance_single rfl hx]
      exact ⟨trades, hsame, VolumeCalc.processEntry_ok hv⟩
  | weightedAvgPriceCalc =>
      obtain ⟨trades₁, hsame₁, hv⟩ := access_v hreads (SameEntries.refl _) hx
      obtain ⟨trades₂, hsame₂, hp⟩ :=
        access_p (s := { s with trades := trades₁ }) hreads hsame₁ hx
      rw [glance_single rfl hx]
      exact ⟨trades₂, hsame₂, WeightedAvgPriceCalc.processEntry_ok hv hp⟩
  | maxPriceCalc =>
      obtain ⟨trades, hsame, hp⟩ := access_p hreads (SameEntries.refl _) hx
      rw [glance_single rfl hx]
      exact ⟨trades, hsame, MaxPriceCalc.processEntry_ok hp⟩
  | tradespersecCalc =>
      have hlast : w[w.length - 1]? = some w[w.length - 1] :=
        List.getElem?_eq_getElem (by omega)
      have hfirst : w[0]? = some w[0] := List.getElem?_eq_getElem (by omega)
      obtain ⟨trades₁, hsame₁, hback⟩ := access_t hreads (SameEntries.refl _) hlast
      obtain ⟨trades₂, hsame₂, hfront⟩ :=
        access_t (s := { s with trades := trades₁ }) hreads hsame₁ hfirst
      exact ⟨trades₂, hsame₂,
        TradespersecCalc.processEntry_ok (i := i) hreads.length_eq hfirst hlast hback hfront⟩
  | tickImbalanceCalc =>
      cases i with
      | zero =>
          refine ⟨s.trades, SameEntries.refl _, ?_⟩
          have hglance : CalcType.glance w 0 .tickImbalanceCalc = [w[0]] := take_drop_single hx
          rw [hglance]
          rfl
      | succ i =>
          have hprev : w[i]? = some w[i] := List.getElem?_eq_getElem (by omega)
          obtain ⟨trades₁, hsame₁, hp⟩ := access_p hreads (SameEntries.refl _) hx
          obtain ⟨trades₂, hsame₂, hprev'⟩ :=
            access_p (s := { s with trades := trades₁ }) hreads hsame₁ hprev
          have hglance : CalcType.glance w (i + 1) .tickImbalanceCalc = [w[i], w[i + 1]] :=
            take_drop_pair hprev hx
          rw [hglance]
          exact ⟨trades₂, hsame₂, TickImbalanceCalc.processEntry_succ hp hprev'⟩

/-! ## Whole passes -/

/-- For a calculator that looks at one entry, one entry more is one glance more. -/
theorem CalcType.pass_concat {c : CalcType} (hc : c.single = true) (w : List Trade) (x : Trade)
    (s : SymbolState N Q) : c.pass (w ++ [x]) s = c.pass [x] (c.pass w s) := by
  cases c with
  | tradespersecCalc | tickImbalanceCalc => cases hc
  | _ => simp [pass]

/-- One entry more. -/
theorem CalcType.pass_glance (c : CalcType) (s : SymbolState N Q) (hi : i < w.length) :
    c.pass (c.glance w i) (c.upTo w i s) = c.upTo w (i + 1) s := by
  have hx : w[i]? = some w[i] := List.getElem?_eq_getElem hi
  cases c with
  | tradespersecCalc =>
      have hne : w ≠ [] := List.ne_nil_of_length_pos (by omega)
      simp only [upTo, glance, pass, if_neg hne, Nat.succ_ne_zero, if_false]
      split <;> rfl
  | tickImbalanceCalc =>
      cases i with
      | zero =>
          have hglance : CalcType.glance w 0 .tickImbalanceCalc = [w[0]] := take_drop_single hx
          rw [hglance]
          simp only [upTo, take_succ_of_getElem? hx]
          rfl
      | succ i =>
          have hprev : w[i]? = some w[i] := List.getElem?_eq_getElem (by omega)
          have hglance : CalcType.glance w (i + 1) .tickImbalanceCalc = [w[i], w[i + 1]] :=
            take_drop_pair hprev hx
          have hlong : ¬ (w.take (i + 2)).length < 2 := by
            rw [List.length_take]
            omega
          rw [hglance]
          simp only [upTo, pass, adjacent_take_succ hprev hx, if_neg hlong, List.foldl_append,
            adjacent_cons_cons, adjacent_singleton, List.foldl_cons, List.foldl_nil]
          rfl
  | maxTimeGapCalc | volumeCalc | weightedAvgPriceCalc | maxPriceCalc =>
      rw [glance_single rfl hx]
      simp only [upTo, take_succ_of_getElem? hx]
      exact (pass_concat rfl _ _ _).symm

theorem CalcType.upTo_zero (c : CalcType) (w : List Trade) (s : SymbolState N Q) :
    c.upTo w 0 s = s := by
  cases c <;> rfl

theorem CalcType.upTo_length (c : CalcType) (w : List Trade) (s : SymbolState N Q) :
    c.upTo w w.length s = c.pass w s := by
  cases c with
  | tradespersecCalc =>
      simp only [upTo, List.length_eq_zero_iff]
      split
      · rename_i hnil
        rw [hnil, pass_nil]
      · rfl
  | _ => simp only [upTo, List.take_length]

/-- After so many entries of a readable deque. -/
theorem CalcType.entries_ok (c : CalcType) (hreads : ReadsAs s.trades w) {n : Nat}
    (hn : n ≤ w.length) :
    ∃ trades, SameEntries s.trades trades ∧
      forRange n c.processEntry s = .ok () { c.upTo w n s with trades := trades } := by
  obtain ⟨s', hrun, trades, hsame, hs'⟩ :=
    forRange_ok
      (fun i s' => ∃ trades, SameEntries s.trades trades ∧
        s' = { c.upTo w i s with trades := trades }) n c.processEntry (s := s)
      ⟨s.trades, SameEntries.refl _, by rw [upTo_zero]⟩
      (by
        rintro i hi _ ⟨trades, hsame, rfl⟩
        have hlt : i < w.length := by omega
        obtain ⟨trades', hsame', hentry⟩ :=
          c.processEntry_pass (s := { c.upTo w i s with trades := trades })
            (hreads.sameEntries hsame) hlt
        rw [c.pass_trades, c.pass_glance s hlt] at hentry
        exact ⟨_, hentry, trades', hsame.trans hsame', rfl⟩)
  exact ⟨trades, hsame, by rw [hrun, hs']⟩

/-- Every calculator pass over a readable deque completes, computes its fold and leaves
the entries the same. -/
theorem CalcType.process_pass (c : CalcType) (hreads : ReadsAs s.trades w) :
    ∃ trades, SameEntries s.trades trades ∧
      c.process s = .ok () { c.pass w s with trades := trades } := by
  obtain ⟨trades, hsame, hrun⟩ := c.entries_ok hreads le_rfl
  refine ⟨trades, hsame, ?_⟩
  rw [process, Calc.process, bind_of_ok (get_apply s), hreads.length_eq, hrun, c.upTo_length]

end

/-! ## What the tick pass counts -/

section

variable {N Q : Type} [Zero N] [Sub N] [LT N] [DecidableLT N] [Arithmetic N Q]

/-- A pass that counts a pair when the difference of its prices, as doubles, has a sign,
and a pass that counts it when its prices are in order; the counters fit into `int`. -/
theorem Pass.foldl_tickStep {qs : List (Trade × Trade)} (ti : TIState)
    (hup : ∀ q ∈ qs, (0 : N) < double q.2.p - double q.1.p ↔ q.1.p < q.2.p)
    (hdown : ∀ q ∈ qs, (double q.2.p - double q.1.p : N) < 0 ↔ q.2.p < q.1.p)
    (hups : ∀ n : Int, ti.upticks ≤ n → n ≤ ti.upticks + (qs.countP fun q => q.1.p < q.2.p) →
      Arithmetic.int (N := N) n = n)
    (hdowns : ∀ n : Int, ti.downticks ≤ n →
      n ≤ ti.downticks + (qs.countP fun q => q.2.p < q.1.p) → Arithmetic.int (N := N) n = n) :
    qs.foldl (Pass.tickStep N) ti =
      { upticks := ti.upticks + (qs.countP fun q => q.1.p < q.2.p)
        downticks := ti.downticks + (qs.countP fun q => q.2.p < q.1.p) } := by
  induction qs generalizing ti with
  | nil => simp
  | cons q qs ih =>
      have hup' : ∀ q ∈ qs, (0 : N) < double q.2.p - double q.1.p ↔ q.1.p < q.2.p :=
        fun q' hq' => hup q' (by simp [hq'])
      have hdown' : ∀ q ∈ qs, (double q.2.p - double q.1.p : N) < 0 ↔ q.2.p < q.1.p :=
        fun q' hq' => hdown q' (by simp [hq'])
      rw [List.foldl_cons]
      simp only [List.countP_cons, decide_eq_true_eq] at hups hdowns ⊢
      simp only [Pass.tickStep, gt_iff_lt, hup q (by simp), hdown q (by simp)]
      rcases lt_trichotomy q.1.p q.2.p with hlt | heq | hgt
      · simp only [if_pos hlt, if_neg hlt.not_gt] at hups hdowns ⊢
        have hone := hups (ti.upticks + 1) (by omega) (by omega)
        have hrest : ∀ n : Int, ti.upticks + 1 ≤ n →
            n ≤ ti.upticks + 1 + (qs.countP fun q => q.1.p < q.2.p) →
            Arithmetic.int (N := N) n = n :=
          fun n hle hge => hups n (by omega) (by omega)
        rw [hone, ih ⟨ti.upticks + 1, ti.downticks⟩ hup' hdown' hrest
          fun n hle hge => hdowns n hle (by omega)]
        simp only [TIState.mk.injEq]
        omega
      · simp only [heq, lt_irrefl, if_false] at hups hdowns ⊢
        rw [ih ti hup' hdown' hups hdowns]
        rfl
      · simp only [if_pos hgt, if_neg hgt.not_gt] at hups hdowns ⊢
        have hone := hdowns (ti.downticks + 1) (by omega) (by omega)
        have hrest : ∀ n : Int, ti.downticks + 1 ≤ n →
            n ≤ ti.downticks + 1 + (qs.countP fun q => q.2.p < q.1.p) →
            Arithmetic.int (N := N) n = n :=
          fun n hle hge => hdowns n (by omega) (by omega)
        rw [hone, ih ⟨ti.upticks, ti.downticks + 1⟩ hup' hdown'
          (fun n hle hge => hups n hle (by omega)) hrest]
        simp only [TIState.mk.injEq]
        omega

end

end TradeProcessor
