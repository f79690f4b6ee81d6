import Sable.Proofs.Scanning.Tiling
import Sable.Text.Blank

/-!
# Blank sources

Blanks are part of no number, word, sign or text, so the tokens of a blank source are trivia.
-/

namespace Sable

namespace Text.CharSet

/-- The code points between the edges, which come in pairs. -/
def codes : List Nat → List Nat
  | lo :: hi :: rest => List.range' lo (hi - lo) ++ codes rest
  | _ => []

theorem mem_codes {c : Char} : ∀ {edges : List Nat}, edges.length % 2 = 0 →
    (CharSet.mk edges).has c → c.toNat ∈ codes edges
  | [], _, h => by cases h
  | [_], heven, _ => by cases heven
  | lo :: hi :: rest, heven, h => by
    rw [codes, List.mem_append, List.mem_range'_1]
    by_cases hhi : hi ≤ c.toNat
    · have heven : rest.length % 2 = 0 := by
        rw [List.length_cons, List.length_cons] at heven
        omega
      refine .inr (mem_codes heven ?_)
      by_cases hlo : lo ≤ c.toNat
      · simpa [has, hlo, hhi, Nat.add_assoc] using h
      · simp [has, hlo] at h
    · by_cases hlo : lo ≤ c.toNat
      · exact .inl (by omega)
      · simp [has, hlo] at h

end Text.CharSet

theorem Lexeme.head?_of_exactly {word rest : List Char} {c : Char} (h : 0 < exactly word (c :: rest)) :
    word.head? = some c := by
  unfold exactly at h
  split at h
  · cases word with
    | nil => exact absurd h (Nat.lt_irrefl 0)
    | cons d word => simp_all
  · exact absurd h (Nat.lt_irrefl 0)

theorem Lexeme.exactly_of_keyword {word cs : List Char} (h : 0 < keyword word cs) :
    0 < exactly word cs := by
  unfold keyword at h
  split at h
  · split at h
    · exact absurd h (Nat.lt_irrefl 0)
    · exact h
  · exact h

/-- A blank begins no number, word or text. -/
theorem Text.isBlank_false {c : Char} (h : isBlank c) :
    c.isDigit = false ∧ isWordStart c = false ∧ c ≠ '"' := by
  have hblanks : ∀ n ∈ CharSet.codes blank.edges, (Char.ofNat n).isDigit = false ∧
      isWordStart (Char.ofNat n) = false ∧ Char.ofNat n ≠ '"' := by decide +kernel
  have hc := hblanks c.toNat (CharSet.mem_codes (by decide) h)
  rwa [Char.ofNat_toNat] at hc

theorem Kind.head_not_blank : (∀ word ∈ Keyword.all, word.text.toList.head?.all (!Text.isBlank ·)) ∧
    ∀ sign ∈ Symbol.all, sign.text.toList.head?.all (!Text.isBlank ·) := by
  decide +kernel

/-- A blank begins nothing but trivia. -/
theorem Kind.isTrivia_of_blank {kind : Kind} {c : Char} {rest : List Char} (hc : Text.isBlank c)
    (h : 0 < kind.reach (c :: rest)) : kind.isTrivia := by
  obtain ⟨hdigit, hstart, hquote⟩ := Text.isBlank_false hc
  cases kind with
  | space | comment | newline => rfl
  | number => simp [Kind.reach, Lexeme.number, Lexeme.digits, hdigit] at h
  | text =>
    have hpos : 0 < Lexeme.text (c :: rest) := h
    obtain ⟨-, raw, hraw⟩ := Lexeme.take_text hpos
    have hhead := congrArg List.head? hraw
    rw [List.head?_take, if_neg (Nat.ne_of_gt hpos)] at hhead
    exact absurd (Option.some.inj hhead) hquote
  | identifier => simp [Kind.reach, Lexeme.identifier, hstart] at h
  | keyword word =>
    have hhead := Lexeme.head?_of_exactly (Lexeme.exactly_of_keyword h)
    have hword := head_not_blank.1 word (by cases word <;> decide)
    simp [hhead, hc] at hword
  | symbol sign =>
    have hhead := Lexeme.head?_of_exactly h
    have hsign := head_not_blank.2 sign (by cases sign <;> decide)
    simp [hhead, hc] at hsign
  | indent | dedent | endOfFile => exact absurd h (Nat.lt_irrefl 0)

/-- A source of blanks has no token that the grammar could see but the end of the file. -/
theorem Token.scanFrom_blank {kinds : List Kind} {loc : Loc} {cs : List Char} {tokens : List Token}
    (hcs : Text.allBlank cs) (h : scanFrom kinds loc cs = .ok tokens) :
    ∀ t ∈ tokens, t.kind.isTrivia ∨ t.kind = .endOfFile := by
  fun_induction scanFrom kinds loc cs generalizing tokens with
  | case1 loc =>
    cases h
    intro t ht
    rw [List.mem_singleton.1 ht]
    exact .inr rfl
  | case2 => cases h
  | case3 loc c rest kind n hmatch lexeme stop tail htail =>
    rename_i ih
    cases h
    have hall : ∀ d ∈ c :: rest, Text.isBlank d := by simpa [Text.allBlank] using hcs
    have hdrop : Text.allBlank ((c :: rest).drop n) := by
      refine List.all_eq_true.2 fun d hd => hall d (List.mem_of_mem_drop hd)
    have hreach : 0 < kind.reach (c :: rest) := by
      obtain ⟨-, rfl⟩ := firstMatch_eq_some hmatch
      exact firstMatch_pos hmatch
    intro t ht
    rcases List.mem_cons.1 ht with rfl | ht
    · exact .inl (Kind.isTrivia_of_blank (hall c List.mem_cons_self) hreach)
    · exact ih hdrop htail t ht
  | case4 => cases h

end Sable
