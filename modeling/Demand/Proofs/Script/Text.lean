import Demand.Script.Request
import Mathlib.Data.List.Basic

/-!
# Scripted requests are told apart by their texts

The store outside the engine knows requests by their text. Two hooked requests with one text are one
request (`Request.text_injective`): no name of a kind has a parenthesis, numbers and quoted keys are
written without loss, and what a character is quoted as is never the start of what another is quoted
as.
-/

namespace Demand.Text

/-! ## Quoted text -/

theorem digitChar_injective {m n : Nat} (hm : m < 16) (hn : n < 16)
    (h : Nat.digitChar m = Nat.digitChar n) : m = n := by
  have hall : ∀ i : Fin 16, ∀ j : Fin 16, Nat.digitChar i = Nat.digitChar j → i = j := by decide
  exact congrArg Fin.val (hall ⟨m, hm⟩ ⟨n, hn⟩ h)

theorem hexadecimal_eq (n : Nat) :
    hexadecimal n =
      if n < 16 then [Nat.digitChar n] else hexadecimal (n / 16) ++ [Nat.digitChar (n % 16)] :=
  Nat.toDigits_eq_if (by decide)

theorem hexadecimal_ne_nil (n : Nat) : hexadecimal n ≠ [] :=
  Nat.toDigits_ne_nil

theorem hexadecimal_injective {m n : Nat} (h : hexadecimal m = hexadecimal n) : m = n := by
  -- the last digit is the remainder and the others are those of the quotient
  induction m using Nat.strongRecOn generalizing n with
  | ind m ih =>
    rw [hexadecimal_eq m, hexadecimal_eq n] at h
    by_cases hm : m < 16 <;> by_cases hn : n < 16
    · rw [if_pos hm, if_pos hn] at h
      exact digitChar_injective hm hn (List.singleton_inj.1 h)
    · rw [if_pos hm, if_neg hn] at h
      have hlen : 1 = (hexadecimal (n / 16)).length + 1 := by simpa using congrArg List.length h
      have hpos := List.length_pos_of_ne_nil (hexadecimal_ne_nil (n / 16))
      omega
    · rw [if_neg hm, if_pos hn] at h
      have hlen : (hexadecimal (m / 16)).length + 1 = 1 := by simpa using congrArg List.length h
      have hpos := List.length_pos_of_ne_nil (hexadecimal_ne_nil (m / 16))
      omega
    · rw [if_neg hm, if_neg hn] at h
      obtain ⟨hdiv, hmod⟩ := List.append_inj' h rfl
      have hq := ih (m / 16) (by omega) hdiv
      have hr := digitChar_injective (Nat.mod_lt m (by decide)) (Nat.mod_lt n (by decide))
        (List.singleton_inj.1 hmod)
      omega

theorem not_mem_hexadecimal (n : Nat) : '\x7d' ∉ hexadecimal n := by
  have hall : ∀ i : Fin 16, Nat.digitChar i ≠ '\x7d' := by decide
  induction n using Nat.strongRecOn with
  | ind n ih =>
    rw [hexadecimal_eq]
    split
    next h =>
      rw [List.mem_singleton]
      exact (hall ⟨n, h⟩).symm
    next h =>
      rw [List.mem_append, List.mem_singleton]
      rintro (hmem | heq)
      · exact ih (n / 16) (by omega) hmem
      · exact hall ⟨n % 16, Nat.mod_lt n (by decide)⟩ heq.symm

/-- The characters that are quoted by a letter of their own, with the letter. -/
def letters : List (Char × Char) :=
  [('\x00', '0'), ('\t', 't'), ('\r', 'r'), ('\n', 'n'), ('"', '"'), ('\\', '\\')]

/-- A character is written as it is, by a letter of its own or by its number. -/
theorem quoteChar_cases (c : Char) :
    (quoteChar c = [c] ∧ c ≠ '\\' ∧ c ≠ '"') ∨
    (∃ l, (c, l) ∈ letters ∧ quoteChar c = ['\\', l]) ∨
    quoteChar c = ['\\', 'u', '\x7b'] ++ hexadecimal c.toNat ++ ['\x7d'] := by
  unfold quoteChar
  by_cases h0 : c = '\x00'
  · exact .inr (.inl ⟨'0', by simp [h0, letters], if_pos h0⟩)
  rw [if_neg h0]
  by_cases h1 : c = '\t'
  · exact .inr (.inl ⟨'t', by simp [h1, letters], if_pos h1⟩)
  rw [if_neg h1]
  by_cases h2 : c = '\r'
  · exact .inr (.inl ⟨'r', by simp [h2, letters], if_pos h2⟩)
  rw [if_neg h2]
  by_cases h3 : c = '\n'
  · exact .inr (.inl ⟨'n', by simp [h3, letters], if_pos h3⟩)
  rw [if_neg h3]
  by_cases h4 : c = '"'
  · exact .inr (.inl ⟨'"', by simp [h4, letters], if_pos h4⟩)
  rw [if_neg h4]
  by_cases h5 : c = '\\'
  · exact .inr (.inl ⟨'\\', by simp [h5, letters], if_pos h5⟩)
  rw [if_neg h5]
  split
  · exact .inl ⟨rfl, h5, h4⟩
  · split
    · exact .inr (.inr rfl)
    · exact .inl ⟨rfl, h5, h4⟩

theorem letters_injective {c d l : Char} (hc : (c, l) ∈ letters) (hd : (d, l) ∈ letters) :
    c = d := by
  have hall : ∀ p ∈ letters, ∀ q ∈ letters, p.2 = q.2 → p.1 = q.1 := by decide
  exact hall (c, l) hc (d, l) hd rfl

theorem letter_ne {c l : Char} (h : (c, l) ∈ letters) : l ≠ 'u' := by
  have hall : ∀ p ∈ letters, p.2 ≠ 'u' := by decide
  exact hall (c, l) h

/-- What stands before the first mark, and what stands after it. -/
theorem append_mark_inj {mark : Char} {as bs xs ys : List Char} (ha : mark ∉ as) (hb : mark ∉ bs)
    (h : as ++ mark :: xs = bs ++ mark :: ys) : as = bs ∧ xs = ys := by
  have hsplit : ∀ ls zs : List Char, mark ∉ ls →
      (ls ++ mark :: zs).takeWhile (· ≠ mark) = ls := by
    intro ls zs hl
    rw [List.takeWhile_append_of_pos]
    · simp
    · intro c hc
      have hne : c ≠ mark := by
        rintro rfl
        exact hl hc
      simpa using hne
  obtain rfl : as = bs := by rw [← hsplit as xs ha, h, hsplit bs ys hb]
  simpa using h

/-- No character is quoted as the start of another. -/
theorem quoteChar_append_inj {c d : Char} {xs ys : List Char}
    (h : quoteChar c ++ xs = quoteChar d ++ ys) : c = d ∧ xs = ys := by
  rcases quoteChar_cases c with ⟨hc, hc', -⟩ | ⟨l, hl, hc⟩ | hc <;>
    rcases quoteChar_cases d with ⟨hd, hd', -⟩ | ⟨l', hl', hd⟩ | hd <;>
    rw [hc, hd] at h
  · simpa using h
  · exact absurd (List.cons.inj h).1 hc'
  · exact absurd (List.cons.inj h).1 hc'
  · exact absurd (List.cons.inj h).1.symm hd'
  · simp only [List.cons_append, List.nil_append, List.cons.injEq, true_and] at h
    obtain ⟨rfl, hxs⟩ := h
    exact ⟨letters_injective hl hl', hxs⟩
  · simp only [List.cons_append, List.nil_append, List.cons.injEq, true_and] at h
    exact absurd h.1 (letter_ne hl)
  · exact absurd (List.cons.inj h).1.symm hd'
  · simp only [List.cons_append, List.nil_append, List.cons.injEq, true_and] at h
    exact absurd h.1.symm (letter_ne hl')
  · simp only [List.cons_append, List.nil_append, List.append_assoc, List.cons.injEq,
      true_and] at h
    obtain ⟨hn, hxs⟩ :=
      append_mark_inj (not_mem_hexadecimal c.toNat) (not_mem_hexadecimal d.toNat) h
    exact ⟨Char.toNat_inj.1 (hexadecimal_injective hn), hxs⟩

/-- Inside the quotes stands no quote, and what follows it is the rest. -/
theorem quoted_append_inj {s t xs ys : List Char}
    (h : s.flatMap quoteChar ++ '"' :: xs = t.flatMap quoteChar ++ '"' :: ys) :
    s = t ∧ xs = ys := by
  have hquote : ∀ {c : Char} {zs : List Char}, quoteChar c ++ zs ≠ '"' :: xs ∧
      quoteChar c ++ zs ≠ '"' :: ys := by
    intro c zs
    rcases quoteChar_cases c with ⟨hc, -, hne⟩ | ⟨l, -, hc⟩ | hc <;> rw [hc] <;> simp_all
  induction s generalizing t with
  | nil =>
    cases t with
    | nil => simpa using h
    | cons d t =>
      rw [List.flatMap_cons, List.append_assoc] at h
      exact absurd h.symm hquote.1
  | cons c s ih =>
    cases t with
    | nil =>
      rw [List.flatMap_cons, List.append_assoc] at h
      exact absurd h hquote.2
    | cons d t =>
      rw [List.flatMap_cons, List.flatMap_cons, List.append_assoc, List.append_assoc] at h
      obtain ⟨rfl, hrest⟩ := quoteChar_append_inj h
      obtain ⟨rfl, hxs⟩ := ih hrest
      exact ⟨rfl, hxs⟩

theorem quote_append_inj {s t : String} {xs ys : List Char}
    (h : (quote s).toList ++ xs = (quote t).toList ++ ys) : s = t ∧ xs = ys := by
  simp only [quote, String.toList_ofList, List.append_assoc, List.cons_append, List.nil_append,
    List.cons.injEq, true_and] at h
  obtain ⟨hst, hxs⟩ := quoted_append_inj h
  exact ⟨String.toList_inj.1 hst, hxs⟩

end Demand.Text

namespace Demand.Script

/-! ## Texts of requests -/

theorem Kind.name_injective {k k' : Kind} (h : k.name = k'.name) : k = k' := by
  have hall : ∀ a ∈ Kind.all, ∀ b ∈ Kind.all, a.name = b.name → a = b := by decide
  have hmem : ∀ k : Kind, k ∈ Kind.all := by
    intro k
    rcases k with k | k | _ | _ | _ | _ | _
    · cases k <;> decide
    · cases k <;> decide
    all_goals decide
  exact hall k (hmem k) k' (hmem k') h

theorem Kind.not_mem_name (k : Kind) : '(' ∉ k.name.toList := by
  rcases k with k | k | _ | _ | _ | _ | _
  · cases k <;> decide
  · cases k <;> decide
  all_goals decide

/-- What stands in a text between the name of its kind and the end. -/
theorem Request.toList_text {r : Request} (h : r.isHooked) :
    r.text.toList = r.kind.name.toList ++ '(' ::
      ((String.intercalate ", " r.inputs).toList ++ [')']) := by
  cases r with
  | keyed k key => simp [text]
  | filed k file key => simp [text]
  | located | wide | unit | raw | rawExternal => cases h

theorem Request.toList_inputs_filed (k : FileKind) (file : FileId) (key : String) :
    (String.intercalate ", " (Request.filed k file key).inputs).toList =
      "FileId(".toList ++ (Nat.toDigits 10 file.index ++ ')' :: ',' :: ' ' ::
        (Text.quote key).toList) := by
  simp only [inputs, fileText, String.intercalate_cons_cons, String.intercalate_singleton,
    String.toList_append, Nat.toString_eq_ofList_toDigits, String.toList_ofList, List.append_assoc]
  rfl

theorem not_mem_digits (n : Nat) : ')' ∉ Nat.toDigits 10 n := by
  intro h
  have := Nat.isDigit_of_mem_toDigits (by decide) (by decide) h
  revert this
  decide

theorem Request.text_injective {r q : Request} (hr : r.isHooked) (hq : q.isHooked)
    (h : r.text = q.text) : r = q := by
  have hl := congrArg String.toList h
  rw [toList_text hr, toList_text hq] at hl
  obtain ⟨hname, hrest⟩ :=
    Text.append_mark_inj r.kind.not_mem_name q.kind.not_mem_name hl
  have hkind := Kind.name_injective (String.toList_inj.1 hname)
  cases r with
  | keyed k key =>
    cases q with
    | keyed k' key' =>
      obtain rfl := Kind.keyed.inj hkind
      obtain ⟨rfl, -⟩ := Text.quote_append_inj hrest
      rfl
    | filed | located | wide | unit | raw | rawExternal => cases hkind
  | filed k file key =>
    cases q with
    | filed k' file' key' =>
      obtain rfl := Kind.filed.inj hkind
      simp only [toList_inputs_filed, List.append_assoc, List.cons_append] at hrest
      obtain ⟨hdigits, hkey⟩ := Text.append_mark_inj (not_mem_digits file.index)
        (not_mem_digits file'.index) (List.append_cancel_left hrest)
      simp only [List.cons.injEq, true_and] at hkey
      obtain ⟨rfl, -⟩ := Text.quote_append_inj hkey
      have hfile : file.index = file'.index := by
        rw [← Nat.ofDigitChars_ten_toDigits (n := file.index), hdigits,
          Nat.ofDigitChars_ten_toDigits]
      obtain ⟨i⟩ := file
      obtain ⟨j⟩ := file'
      obtain rfl : i = j := hfile
      rfl
    | keyed | located | wide | unit | raw | rawExternal => cases hkind
  | located | wide | unit | raw | rawExternal => cases hr

end Demand.Script
