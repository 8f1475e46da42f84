import Mathlib.Data.List.TakeDrop
import Symex.Proofs.Smt.Responses
import Symex.Smt.Session

namespace Symex.Smt

/-! ## Parentheses in texts -/

/-- How many more parentheses are opened than closed. -/
def excess (cs : List Char) : Int := cs.count '(' - cs.count ')'

theorem excess_append (cs ds : List Char) : excess (cs ++ ds) = excess cs + excess ds := by
  unfold excess
  rw [List.count_append, List.count_append]
  omega

theorem excess_cons (c : Char) (cs : List Char) : excess (c :: cs) = excess [c] + excess cs :=
  excess_append [c] cs

theorem excess_reverse (cs : List Char) : excess cs.reverse = excess cs := by
  rw [excess, excess, List.count_reverse, List.count_reverse]

theorem excess_of_ne {c : Char} (hopening : c ≠ '(') (hclosing : c ≠ ')') : excess [c] = 0 := by
  rw [excess, List.count_singleton, List.count_singleton]
  simp [hopening, hclosing]

theorem openParens_ofList (cs : List Char) : openParens (.ofList cs) = excess cs := by
  have hfold : ∀ (n : Int), cs.foldl (fun n c ↦ if c = '(' then n + 1 else if c = ')' then n - 1 else n) n =
      n + excess cs := by
    induction cs with
    | nil => exact fun n ↦ (Int.add_zero n).symm
    | cons c cs ih =>
      intro n
      rw [List.foldl_cons, ih, excess_cons]
      split
      · subst c
        exact Int.add_assoc n 1 _
      · split
        · subst c
          exact Int.add_assoc n (-1) _
        · rw [excess_of_ne ‹_› ‹_›, Int.zero_add]
  rw [openParens, String.toList_ofList, hfold, Int.zero_add]

/-! ## Parentheses in pieces -/

namespace Token

/-- How many more parentheses are opened in the piece than closed. -/
def excess : Token → Int
  | opening => 1
  | closing => -1
  | atom s => Smt.excess s.toList

theorem excess_ofReversed (word : List Char) : (ofReversed word).excess = Smt.excess word := by
  rw [ofReversed, excess, String.toList_ofList, excess_reverse]

theorem excess_start (c : Char) : ((start c).1.toList.map excess).sum + Smt.excess (start c).2.2 =
    Smt.excess [c] ∧ ((start c).2.1 = .none → (start c).2.2 = []) := by
  unfold start
  split
  · subst c
    exact ⟨rfl, fun _ ↦ rfl⟩
  · split
    · subst c
      exact ⟨rfl, fun _ ↦ rfl⟩
    · have hzero := excess_of_ne ‹c ≠ '('› ‹_›
      split
      · subst c
        exact ⟨rfl, nofun⟩
      · split
        · exact ⟨hzero.symm, nofun⟩
        · split
          · exact ⟨hzero.symm, fun _ ↦ rfl⟩
          · exact ⟨Int.zero_add _, nofun⟩

theorem sum_excess_scan (mode : Mode) (word text : List Char) (h : mode = .none → word = []) :
    ((scan mode word text).map excess).sum = Smt.excess word + Smt.excess text := by
  induction text generalizing mode word with
  | nil =>
    cases mode with
    | none =>
      rw [h rfl]
      rfl
    | _ => simp [scan, excess_ofReversed, Smt.excess]
  | cons c text ih =>
    have hstart := excess_start c
    have hgo := ih (start c).2.1 (start c).2.2 hstart.2
    rw [excess_cons c text]
    cases mode with
    | none =>
      rw [h rfl, scan, List.map_append, List.sum_append, hgo, ← hstart.1]
      simp only [Smt.excess, List.count_nil]
      omega
    | bare =>
      rw [scan]
      split
      · rw [List.map_cons, List.sum_cons, List.map_append, List.sum_append, hgo, ← hstart.1, excess_ofReversed]
        omega
      · rw [ih .bare (c :: word) (by rintro ⟨⟩), excess_cons c word]
        omega
    | quoted =>
      rw [scan]
      split
      · rw [List.map_cons, List.sum_cons, ih .none [] fun _ ↦ rfl, excess_ofReversed, excess_cons c word]
        simp only [Smt.excess, List.count_nil]
        omega
      · rw [ih .quoted (c :: word) (by rintro ⟨⟩), excess_cons c word]
        omega
    | text =>
      rw [scan]
      split
      · subst c
        rw [List.map_cons, List.sum_cons, ih .none [] fun _ ↦ rfl, excess_ofReversed]
        simp [Smt.excess]
      · rw [ih .text (c :: word) (by rintro ⟨⟩), excess_cons c word]
        omega

def Plain : Token → Prop
  | atom s => '(' ∉ s.toList ∧ ')' ∉ s.toList
  | _ => True

instance : DecidablePred Plain
  | opening | closing => inferInstanceAs (Decidable True)
  | atom s => inferInstanceAs (Decidable ('(' ∉ s.toList ∧ ')' ∉ s.toList))

theorem excess_of_plain {s : String} (h : (atom s).Plain) : (atom s).excess = 0 := by
  rw [excess, Smt.excess, List.count_eq_zero.2 h.1, List.count_eq_zero.2 h.2]
  rfl

theorem exists_scan_eq {mode : Mode} (hmode : mode ≠ .none) (word text : List Char) :
    ∃ more ts, scan mode word text = ofReversed (more ++ word) :: ts := by
  induction text generalizing word with
  | nil =>
    cases mode with
    | none => exact absurd rfl hmode
    | _ => exact ⟨[], [], rfl⟩
  | cons c text ih =>
    have hgo : ∃ more ts, scan mode (c :: word) text = ofReversed (more ++ word) :: ts := by
      obtain ⟨more, ts, heq⟩ := ih (c :: word)
      exact ⟨more ++ [c], ts, by rw [heq, List.append_assoc, List.singleton_append]⟩
    cases mode with
    | none => exact absurd rfl hmode
    | bare =>
      rw [scan]
      split
      · exact ⟨[], _, rfl⟩
      · exact hgo
    | quoted =>
      rw [scan]
      split
      · exact ⟨[c], _, rfl⟩
      · exact hgo
    | text =>
      rw [scan]
      split
      · exact ⟨[], _, rfl⟩
      · exact hgo

theorem plain_of_append {mode : Mode} {word part text : List Char}
    (h : ∀ t ∈ scan mode word (part ++ text), t.Plain) : ∀ t ∈ scan mode word part, t.Plain := by
  induction part generalizing mode word with
  | nil =>
    by_cases hmode : mode = .none
    · subst hmode
      exact fun t ht ↦ absurd ht List.not_mem_nil
    · obtain ⟨more, ts, heq⟩ := exists_scan_eq hmode word text
      rw [List.nil_append, heq, List.forall_mem_cons] at h
      have hword := h.1
      rw [ofReversed, Plain, String.toList_ofList, List.reverse_append, List.mem_append, List.mem_append, not_or,
        not_or] at hword
      have hnil : scan mode word [] = [ofReversed word] := by
        cases mode with
        | none => exact absurd rfl hmode
        | _ => rfl
      rw [hnil, List.forall_mem_singleton, ofReversed, Plain, String.toList_ofList]
      exact ⟨hword.1.1, hword.2.1⟩
  | cons c part ih =>
    rw [List.cons_append] at h
    cases mode with
    | none =>
      rw [scan, List.forall_mem_append] at h ⊢
      exact ⟨h.1, ih h.2⟩
    | bare =>
      rw [scan] at h ⊢
      split at h
      · rename_i hc
        rw [if_pos hc, List.forall_mem_cons, List.forall_mem_append]
        rw [List.forall_mem_cons, List.forall_mem_append] at h
        exact ⟨h.1, h.2.1, ih h.2.2⟩
      · rename_i hc
        rw [if_neg hc]
        exact ih h
    | quoted =>
      rw [scan] at h ⊢
      split at h
      · rename_i hc
        rw [if_pos hc, List.forall_mem_cons]
        rw [List.forall_mem_cons] at h
        exact ⟨h.1, ih h.2⟩
      · rename_i hc
        rw [if_neg hc]
        exact ih h
    | text =>
      rw [scan] at h ⊢
      split at h
      · rename_i hc
        rw [if_pos hc, List.forall_mem_cons]
        rw [List.forall_mem_cons] at h
        exact ⟨h.1, ih h.2⟩
      · rename_i hc
        rw [if_neg hc]
        exact ih h

end Token

namespace SExpr

theorem length_of_build {stack stack' : List (List SExpr)} {ts : List Token} (hts : ∀ t ∈ ts, t.Plain)
    (h : build stack ts = some stack') : (stack'.length : Int) = stack.length + (ts.map Token.excess).sum := by
  fun_induction build stack ts with
  | case1 stack =>
    obtain rfl := Option.some.inj h
    exact (Int.add_zero _).symm
  | case2 stack rest ih =>
    have hrest := ih (List.forall_mem_cons.1 hts).2 h
    rw [hrest, List.map_cons, List.sum_cons, Token.excess, List.length_cons]
    omega
  | case3 inner outer stack rest ih =>
    have hrest := ih (List.forall_mem_cons.1 hts).2 h
    rw [hrest, List.map_cons, List.sum_cons, Token.excess, List.length_cons, List.length_cons, List.length_cons]
    omega
  | case4 => cases h
  | case5 top stack s rest ih =>
    have hs := (List.forall_mem_cons.1 hts).1
    have hrest := ih (List.forall_mem_cons.1 hts).2 h
    rw [hrest, List.map_cons, List.sum_cons, Token.excess_of_plain hs, List.length_cons, List.length_cons]
    omega
  | case6 => cases h

def Inside (text : List Char) : Prop :=
  ∃ inner outer stack, build [[]] (Token.scan .none [] text) = some (inner :: outer :: stack)

theorem excess_of_build {text : List Char} {stack : List (List SExpr)} (h : ∀ t ∈ Token.scan .none [] text, t.Plain)
    (hbuild : build [[]] (Token.scan .none [] text) = some stack) : (stack.length : Int) = 1 + excess text := by
  rw [length_of_build h hbuild, Token.sum_excess_scan .none [] text fun _ ↦ rfl]
  exact congrArg (1 + ·) (Int.zero_add _)

end SExpr

/-! ## Lines -/

namespace Talk

def joined (first : List Char) (more : List (List Char)) : List Char := first ++ more.flatMap ('\n' :: ·)

/-- How lines are put together when they are read. -/
def spaced (first : List Char) (more : List (List Char)) : List Char :=
  first ++ '\n' :: more.flatMap fun line ↦ ' ' :: (line ++ ['\n'])

variable {first line rest : List Char} {more : List (List Char)}

theorem joined_cons : joined first (line :: more) = joined (first ++ '\n' :: line) more := by
  simp [joined]

theorem splitLine_append (h : '\n' ∉ line) : splitLine (line ++ '\n' :: rest) = (line ++ ['\n'], rest) := by
  have hline : ∀ c ∈ line, decide (c ≠ '\n') = true := by
    intro c hc
    rw [decide_eq_true_iff]
    rintro rfl
    exact h hc
  rw [splitLine, List.span_eq_takeWhile_dropWhile, List.takeWhile_append_of_pos hline,
    List.dropWhile_append_of_pos hline]
  simp

theorem readLines_eq {fuel : Nat} {acc : List Char} (hlines : ∀ l ∈ more, '\n' ∉ l)
    (hopen : ∀ front, front <+: more → front ≠ more → 0 < excess (acc ++ front.flatten))
    (hend : excess (acc ++ more.flatten) = 0) (hfuel : more.length < fuel) :
    readLines fuel (.ofList acc) (more.flatMap (· ++ ['\n']) ++ rest) =
      (.ofList (acc ++ more.flatMap fun line ↦ ' ' :: (line ++ ['\n'])), rest) := by
  induction more generalizing acc fuel with
  | nil =>
    obtain ⟨fuel, rfl⟩ := Nat.exists_eq_succ_of_ne_zero (Nat.ne_zero_of_lt hfuel)
    rw [List.flatten_nil, List.append_nil] at hend
    rw [readLines, openParens_ofList, hend, if_pos (Int.le_refl 0)]
    simp
  | cons line more ih =>
    obtain ⟨fuel, rfl⟩ := Nat.exists_eq_succ_of_ne_zero (Nat.ne_zero_of_lt hfuel)
    rw [List.forall_mem_cons] at hlines
    have hpos : 0 < excess acc := by
      have h := hopen [] (List.nil_prefix) (List.cons_ne_nil _ _).symm
      rwa [List.flatten_nil, List.append_nil] at h
    -- blanks and ends of lines change nothing of what is open
    have hsame (front : List (List Char)) :
        excess (acc ++ ' ' :: (line ++ ['\n']) ++ front.flatten) = excess (acc ++ (line :: front).flatten) := by
      have hblank := excess_cons ' ' (line ++ ['\n'])
      rw [List.flatten_cons, excess_append, excess_append, excess_append, excess_append, hblank, excess_append]
      simp [excess]
      omega
    have hrest := @ih fuel (acc ++ ' ' :: (line ++ ['\n'])) hlines.2
      (fun front hfront hne ↦ by
        rw [hsame]
        exact hopen (line :: front) ((List.prefix_cons_inj line).2 hfront) fun heq ↦ hne (List.cons.inj heq).2)
      (by rw [hsame, hend]) (Nat.lt_of_succ_lt_succ hfuel)
    have hpush : String.push (.ofList acc) ' ' ++ String.ofList (line ++ ['\n']) =
        .ofList (acc ++ ' ' :: (line ++ ['\n'])) := by
      rw [← String.toList_inj]
      simp
    rw [readLines, openParens_ofList, if_neg (Int.not_le.2 hpos), List.flatMap_cons, List.append_assoc,
      List.append_assoc, List.singleton_append, splitLine_append hlines.1]
    split
    · rename_i heq
      simp at heq
    · rename_i heq
      obtain ⟨rfl, rfl⟩ := Prod.mk.inj heq
      dsimp only
      rw [hpush, hrest, List.flatMap_cons]
      simp

theorem length_le_flatMap (more : List (List Char)) : more.length ≤ (more.flatMap (· ++ ['\n'])).length := by
  induction more with
  | nil => exact Nat.le_refl _
  | cons line more ih =>
    rw [List.length_cons, List.flatMap_cons, List.length_append, List.length_append, List.length_singleton]
    omega

theorem joined_append : joined first more ++ '\n' :: rest =
    first ++ '\n' :: (more.flatMap (· ++ ['\n']) ++ rest) := by
  induction more generalizing first with
  | nil => simp [joined]
  | cons line more ih =>
    rw [joined_cons, ih]
    simp

theorem excess_joined : excess (joined first more) = excess (first ++ ['\n'] ++ more.flatten) := by
  induction more generalizing first with
  | nil => simp [joined, excess]
  | cons line more ih =>
    rw [joined_cons, ih, List.flatten_cons]
    simp only [excess_append, excess_cons '\n' line]
    simp [excess]
    omega

/-- An answer that can be read has as many parentheses opened as closed, and more opened up to any place inside of
it, so that all of its lines are read and no other, however it was broken into lines inside of lists. That takes
words without parentheses. -/
theorem takeResponse_of_parse {e : SExpr} (hlines : ∀ line ∈ first :: more, '\n' ∉ line)
    (hparse : SExpr.parse (.ofList (joined first more)) = .ok e) (hplain : ∀ t ∈ e.tokens, t.Plain)
    (hinside : ∀ front, front <+: more → front ≠ more → SExpr.Inside (joined first front)) :
    (∀ part, part <+: joined first more → SExpr.Inside part → 0 < openParens (.ofList part)) ∧
      openParens (.ofList (joined first more)) = 0 ∧
      takeResponse (joined first more ++ '\n' :: rest) = (.ofList (spaced first more), rest) := by
  rw [SExpr.parse_eq_ok_iff, Token.ofText, String.toList_ofList] at hparse
  rw [← hparse] at hplain
  have hopen : ∀ part, part <+: joined first more → SExpr.Inside part → 0 < excess part := by
    rintro part ⟨text, htext⟩ ⟨inner, outer, stack, hbuild⟩
    rw [← htext] at hplain
    have hlength := SExpr.excess_of_build (Token.plain_of_append hplain) hbuild
    rw [List.length_cons, List.length_cons] at hlength
    omega
  have hend : excess (joined first more) = 0 := by
    have hbuild : SExpr.build [[]] (Token.scan .none [] (joined first more)) = some [[e]] := by
      rw [hparse, SExpr.build_eq_some_iff]
      simp
    have hlength := SExpr.excess_of_build hplain hbuild
    rw [List.length_singleton] at hlength
    omega
  refine ⟨fun part hpart hin ↦ ?_, ?_, ?_⟩
  · rw [openParens_ofList]
    exact hopen part hpart hin
  · rw [openParens_ofList, hend]
  · rw [List.forall_mem_cons] at hlines
    rw [joined_append, takeResponse, splitLine_append hlines.1]
    have hread := @readLines_eq rest more ((more.flatMap (· ++ ['\n']) ++ rest).length + 1) (first ++ ['\n']) hlines.2
      (fun front hfront hne ↦ by
        rw [← excess_joined]
        refine hopen _ ?_ (hinside front hfront hne)
        obtain ⟨back, rfl⟩ := hfront
        exact ⟨back.flatMap ('\n' :: ·), by simp [joined]⟩)
      (by rw [← excess_joined, hend]) (by
        have hle := length_le_flatMap more
        rw [List.length_append]
        omega)
    dsimp only
    rw [hread, spaced]
    simp

theorem takeResponse_of_parse_twoValues :
    SExpr.parse (.ofList (joined "((x #x0A)".toList [" (|a b| (_ bv7 8)))".toList])) =
      .ok (.list (SExpr.twoValues.map SExpr.Binding.pair)) ∧
    takeResponse "((x #x0A)\n (|a b| (_ bv7 8)))\nsat\n".toList =
      ("((x #x0A)\n  (|a b| (_ bv7 8)))\n", "sat\n".toList) := by
  have hparse : SExpr.parse (.ofList (joined "((x #x0A)".toList [" (|a b| (_ bv7 8)))".toList])) =
      .ok (.list (SExpr.twoValues.map SExpr.Binding.pair)) := SExpr.parse_eq_ok_iff.2 (by decide +kernel)
  have hinside : SExpr.Inside (joined "((x #x0A)".toList []) := by
    have htokens : Token.scan .none [] (joined "((x #x0A)".toList []) =
        [.opening, .opening, .atom "x", .atom "#x0A", .closing] := by decide +kernel
    rw [SExpr.Inside, htokens]
    exact ⟨_, _, _, rfl⟩
  have htake := @takeResponse_of_parse _ "sat\n".toList _ _ (by decide +kernel) hparse (by decide +kernel)
    fun front hfront hne ↦ by
      rcases List.prefix_cons_iff.1 hfront with rfl | ⟨back, rfl, hback⟩
      · exact hinside
      · exact absurd (congrArg _ (List.prefix_nil.1 hback)) hne
  refine ⟨hparse, ?_⟩
  have hspaced : spaced "((x #x0A)".toList [" (|a b| (_ bv7 8)))".toList] =
      "((x #x0A)\n  (|a b| (_ bv7 8)))\n".toList := by decide +kernel
  rw [hspaced] at htake
  exact htake.2.2

/-- A parenthesis in the name of an input is taken for one of the answer: the second line is not read, although the
first one ends inside of a list. -/
theorem takeResponse_cut : (SExpr.parse "((|in_a)| #x05)\n (x #x07))").isOk ∧
    SExpr.Inside "((|in_a)| #x05)".toList ∧ openParens "((|in_a)| #x05)" = 0 ∧
    takeResponse "((|in_a)| #x05)\n (x #x07))\n".toList = ("((|in_a)| #x05)\n", " (x #x07))\n".toList) := by
  have htokens : Token.scan .none [] "((|in_a)| #x05)".toList =
      [.opening, .opening, .atom "|in_a)|", .atom "#x05", .closing] := by decide +kernel
  refine ⟨by decide +kernel, ?_, by decide +kernel, by decide +kernel⟩
  rw [SExpr.Inside, htokens]
  exact ⟨_, _, _, rfl⟩

end Talk

end Symex.Smt
