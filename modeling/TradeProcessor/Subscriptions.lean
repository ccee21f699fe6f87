/-
  Subscriptions.lean --- what the subscriptions say.

  The constructor of `WSSession` puts each symbol of the configuration between
  quotes as it is.  What the server reads there is decided by the grammar of JSON
  strings.
-/
import TradeProcessor.Startup
import TradeProcessor.Library.JsonText

set_option autoImplicit false

namespace TradeProcessor

open TradeProcessor.Library.JsonText

/-- What a subscription is meant to say. -/
def subscribeTo (symbol : String) : Document :=
  .object [("type", .string "subscribe"), ("symbol", .string symbol)]

/-- The member names of an object. -/
def memberNames : Document → List String
  | .object members => members.map Prod.fst
  | _ => []

/-! ## What is read -/

theorem toList_subscription (symbol : String) :
    (subscription symbol).toList =
      '\x7b' :: '"' :: ("type".toList ++ '"' :: ':' :: '"' :: ("subscribe".toList ++ '"' ::
        ',' :: '"' :: ("symbol".toList ++ '"' :: ':' :: '"' ::
          (symbol.toList ++ ['"', '\x7d'])))) := by
  have hbefore : "\x7b\"type\":\"subscribe\",\"symbol\":\"".toList =
      '\x7b' :: '"' :: ("type".toList ++ '"' :: ':' :: '"' :: ("subscribe".toList ++ '"' ::
        ',' :: '"' :: ("symbol".toList ++ ['"', ':', '"']))) := by decide +kernel
  have hafter : "\"\x7d".toList = ['"', '\x7d'] := by decide
  unfold subscription
  rw [String.toList_append, String.toList_append, hbefore, hafter]
  simp only [List.cons_append, List.append_assoc, List.nil_append]

theorem length_subscription (symbol : String) :
    (subscription symbol).length = symbol.length + 32 := by
  have htype : "type".toList.length = 4 := by decide
  have hsubscribe : "subscribe".toList.length = 9 := by decide
  have hsymbol : "symbol".toList.length = 6 := by decide
  rw [← String.length_toList, toList_subscription]
  simp only [List.length_cons, List.length_append, htype, hsubscribe, hsymbol, List.length_nil,
    String.length_toList]
  ring

/-- The symbol is read from its opening quote on; the members before it are fixed. -/
theorem value_subscription (n : Nat) (symbol : String) :
    value (n + 20) (subscription symbol).toList = (do
      let s ← stringBody (n + 16) (symbol.toList ++ ['"', '\x7d'])
      let ms ← further '\x7d' (members (n + 17)) s.2
      some (.object (("type", .string "subscribe") ::
        ("symbol", .string (String.ofList s.1)) :: ms.1), ms.2)) := by
  have htype : "type".toList = ['t', 'y', 'p', 'e'] := by decide
  have hsubscribe : "subscribe".toList =
      ['s', 'u', 'b', 's', 'c', 'r', 'i', 'b', 'e'] := by decide
  have hsymbol : "symbol".toList = ['s', 'y', 'm', 'b', 'o', 'l'] := by decide
  rw [toList_subscription, value_brace,
    members_plain (by rw [htype]; simp) (by simp [htype, Plain]),
    value_plain (by rw [hsubscribe]; simp) (by simp [hsubscribe, Plain])]
  simp only [Option.bind_eq_bind, Option.bind_some, further_comma]
  rw [members_plain (by rw [hsymbol]; simp) (by simp [hsymbol, Plain]), value_quote]
  simp only [String.ofList_toList]
  cases stringBody (n + 16) (symbol.toList ++ ['"', '\x7d']) with
  | none => rfl
  | some s =>
      simp only [Option.map_some, Option.bind_eq_bind, Option.bind_some]
      cases further '\x7d' (members (n + 17)) s.2 <;> rfl

theorem decode_subscription_eq (symbol : String) :
    decode (subscription symbol) = (do
      let s ← stringBody (symbol.length + 29) (symbol.toList ++ ['"', '\x7d'])
      let ms ← further '\x7d' (members (symbol.length + 30)) s.2
      if skipSpace ms.2 = [] then
        some (.object (("type", .string "subscribe") ::
          ("symbol", .string (String.ofList s.1)) :: ms.1))
      else none) := by
  have hfuel : symbol.length + 32 + 1 = symbol.length + 13 + 20 := rfl
  rw [decode, length_subscription, hfuel, value_subscription]
  cases stringBody (symbol.length + 29) (symbol.toList ++ ['"', '\x7d']) with
  | none => rfl
  | some s =>
      simp only [Option.bind_eq_bind, Option.bind_some]
      cases further '\x7d' (members (symbol.length + 30)) s.2 <;> rfl

/-- A string that is read as the symbol, up to the end of the message. -/
theorem decode_subscription {symbol : String} {s : List Char}
    (h : stringBody (symbol.length + 29) (symbol.toList ++ ['"', '\x7d']) = some (s, ['\x7d'])) :
    decode (subscription symbol) = some (subscribeTo (String.ofList s)) := by
  rw [decode_subscription_eq, h]
  rfl

/-- What is between the quotes of a message is what it says only when it is plain. -/
theorem stringBody_symbol {symbol : String} {fuel : Nat} {rest : List Char}
    (h : stringBody fuel (symbol.toList ++ ['"', '\x7d']) = some (symbol.toList, rest)) :
    ∀ c ∈ symbol.toList, Plain c := by
  obtain ⟨raw, happend, hle, hsame⟩ := stringBody_eq_some h
  have hraw : symbol.toList.length = raw.length := by
    have htotal := congrArg List.length happend
    simp only [List.length_append, List.length_cons, List.length_nil] at htotal
    by_contra hne
    -- The brace would be the closing quote.
    have hlast : raw.length = symbol.toList.length + 1 := by omega
    have hchar := congrArg (·[symbol.toList.length + 1]?) happend
    rw [← hlast] at hchar
    simp [hlast] at hchar
  obtain ⟨rfl, hplain⟩ := hsame hraw
  exact hplain

/-! ## What the message says -/

/-- The symbol with its quotes, backslashes and control characters escaped. -/
def escapedSymbol (symbol : String) : String := String.ofList (symbol.toList.flatMap escaped)

/-- Had the constructor escaped the symbols, every message would say which symbol it
is for. -/
theorem decode_escaped (symbol : String) :
    decode (subscription (escapedSymbol symbol)) = some (subscribeTo symbol) := by
  have hlength : symbol.toList.length < (escapedSymbol symbol).length + 29 := by
    have hle := length_le_flatMap_escaped symbol.toList
    rw [escapedSymbol, String.length_ofList]
    omega
  have hbody := stringBody_escaped hlength ['\x7d']
  rw [decode_subscription (by rwa [escapedSymbol, String.toList_ofList]), String.ofList_toList]

/-- A subscription says `subscribe` and its symbol, and nothing else, exactly when the
symbol has no character that JSON would have escaped.  Different symbols have
different subscriptions in any case. -/
theorem subscription_decodes_iff (symbol : String) :
    (decode (subscription symbol) = some (subscribeTo symbol) ↔ ∀ c ∈ symbol.toList, Plain c) ∧
      ∀ other, subscription symbol = subscription other → symbol = other := by
  refine ⟨⟨fun h => ?_, fun hplain => ?_⟩, fun other h => ?_⟩
  · rw [decode_subscription_eq] at h
    simp only [Option.bind_eq_bind, Option.bind_eq_some_iff] at h
    obtain ⟨⟨s, after⟩, hbody, ms, _, hend⟩ := h
    split at hend
    · simp only [subscribeTo, Option.some.injEq, Document.object.injEq, List.cons.injEq,
        Prod.mk.injEq, Document.string.injEq, true_and] at hend
      have hs : s = symbol.toList := by rw [← hend.1, String.toList_ofList]
      rw [hs] at hbody
      exact stringBody_symbol hbody
    · cases hend
  · rw [decode_subscription (stringBody_plain (by rw [String.length_toList]; omega) hplain _),
      String.ofList_toList]
  · have hchars := congrArg String.toList h
    simp only [toList_subscription, List.cons.injEq, true_and, List.append_cancel_left_eq,
      List.append_cancel_right_eq] at hchars
    exact String.toList_inj.mp hchars

/-- A symbol in quotes makes a message that is not JSON; another one brings a member of
its own. -/
theorem symbol_not_encoded :
    decode (subscription "\"AMZN\"") = none ∧
      (decode (subscription "AMZN\",\"type\":\"unsubscribe")).map memberNames =
        some ["type", "symbol", "type"] := by
  constructor
  · rw [← Option.isNone_iff_eq_none]
    decide +kernel
  · decide +kernel

end TradeProcessor
