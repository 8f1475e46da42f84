import Symex.Proofs.Refinement

namespace Symex

open Bits

variable {a : Assignment}

namespace Expr

theorem joinExtracts_refines {m l j : Expr} (h : (Expr.concat m l).WellFormed)
    (hj : joinExtracts m l = some j) : Refines a (.concat m l) j := by
  unfold joinExtracts at hj
  split at hj
  · rename_i high highOffset highWidth low lowOffset lowWidth
    split at hj
    · rename_i hadj
      obtain ⟨hoff, rfl⟩ := hadj
      rw [Option.some_inj] at hj
      subst hj hoff
      simp only [WellFormed, width_extract, maxWidth_eq] at h
      obtain ⟨⟨hhigh, hhw, hhr⟩, ⟨-, hlw, hlr⟩, hsum⟩ := h
      -- The joined range as a node, before a range of all bits gives way to the value.
      have hnode : Refines a
          (.concat (.extract high (lowOffset + lowWidth) highWidth)
            (.extract high lowOffset lowWidth))
          (.extract high lowOffset (highWidth + lowWidth)) := by
        refine ⟨?_, rfl, fun {v} hv ↦ ?_⟩
        · simp only [WellFormed]
          exact ⟨hhigh, by omega, by omega⟩
        · obtain ⟨x, y, hx, hy, rfl⟩ := Assignment.eval_concat.1 hv
          obtain ⟨n, hn, rfl⟩ := Assignment.eval_extract.1 hx
          obtain ⟨n', hn', rfl⟩ := Assignment.eval_extract.1 hy
          obtain rfl : n = n' := by rwa [hn, Option.some_inj] at hn'
          exact Assignment.eval_extract.2 ⟨n, hn, (append_ranges _ _ _ _).symm⟩
      split
      · rename_i hall
        refine hnode.trans ⟨hhigh, hall.2.symm, fun {v} hv ↦ ?_⟩
        obtain ⟨n, hn, rfl⟩ := Assignment.eval_extract.1 hv
        rw [hall.1, hall.2, range_zero_of_lt (Assignment.eval_lt hhigh hn)]
        exact hn
      · exact hnode
    · simp at hj
  · simp at hj

theorem concatCore_refines {m l : Expr} (h : (Expr.concat m l).WellFormed) :
    Refines a (.concat m l) (concatCore m l) := by
  fun_induction concatCore m l with
  | case1 m im il j hj ih =>
    simp only [WellFormed, width_concat, maxWidth_eq] at h
    obtain ⟨hm, ⟨him, hil, -⟩, hw⟩ := h
    have hmi : (Expr.concat m im).WellFormed := by
      simp only [WellFormed, maxWidth_eq]
      exact ⟨hm, him, by omega⟩
    have hjoin := joinExtracts_refines (a := a) hmi hj
    have hjw : j.width = m.width + im.width := hjoin.width_eq
    have hji : (Expr.concat j il).WellFormed := by
      simp only [WellFormed, maxWidth_eq]
      exact ⟨hjoin.wellFormed, hil, by omega⟩
    refine Refines.trans ⟨hji, ?_, fun {v} hv ↦ ?_⟩ (ih hji)
    · simp only [width_concat]
      omega
    · obtain ⟨x, yz, hx, hyz, rfl⟩ := Assignment.eval_concat.1 hv
      obtain ⟨y, z, hy, hz, rfl⟩ := Assignment.eval_concat.1 hyz
      refine Assignment.eval_concat.2
        ⟨_, z, hjoin.eval_eq (Assignment.eval_concat.2 ⟨x, y, hx, hy, rfl⟩), hz, ?_⟩
      rw [append_assoc, width_concat]
  | case2 m im il hj => exact .refl h
  | case3 m n w k hk =>
    rw [value?_eq_some] at hk
    have hw := h
    simp only [WellFormed, width_const, maxWidth_eq] at hw
    refine ⟨word_wellFormed _ (by omega) hw.2.2, rfl, fun {v} hv ↦ ?_⟩
    have hlt := Assignment.eval_lt h hv
    obtain ⟨x, y, hx, hy, rfl⟩ := Assignment.eval_concat.1 hv
    rw [hk, Assignment.eval_const, Option.some_inj] at hx
    rw [Assignment.eval_const, Option.some_inj] at hy
    subst hx hy
    rw [Assignment.eval_word, Option.some_inj]
    exact Nat.mod_eq_of_lt hlt
  | case4 m n w hm => exact .refl h
  | case5 m l hl hl' =>
    cases hj : joinExtracts m l with
    | none => exact .refl h
    | some j => exact joinExtracts_refines h hj

theorem extract_all_refines {e : Expr} (h : e.WellFormed) :
    Refines a (.extract e 0 e.width) e := by
  refine ⟨h, rfl, fun {v} hv ↦ ?_⟩
  obtain ⟨n, hn, rfl⟩ := Assignment.eval_extract.1 hv
  rw [range_zero_of_lt (Assignment.eval_lt h hn)]
  exact hn

theorem extractCore_refines {e : Expr} {o w : Nat} (h : (Expr.extract e o w).WellFormed) :
    Refines a (.extract e o w) (extractCore e o w) := by
  fun_induction extractCore e o w with
  | case1 e o w hall =>
    obtain ⟨rfl, rfl⟩ := hall
    simp only [WellFormed] at h
    exact extract_all_refines h.1
  | case2 o w v w' hall =>
    have hw := h.width_range
    refine ⟨word_wellFormed _ hw.1 hw.2, rfl, fun {v'} hv ↦ ?_⟩
    obtain ⟨n, hn, rfl⟩ := Assignment.eval_extract.1 hv
    rw [Assignment.eval_const, Option.some_inj] at hn
    rw [Assignment.eval_word, hn]
  | case3 o w m l hlo hall ih =>
    simp only [WellFormed, width_concat] at h
    obtain ⟨⟨hm, hl, -⟩, hw, hr⟩ := h
    have hnode : (Expr.extract m (o - l.width) w).WellFormed := by
      simp only [WellFormed]
      exact ⟨hm, hw, by omega⟩
    refine Refines.trans ⟨hnode, rfl, fun {v} hv ↦ ?_⟩ (ih hnode)
    obtain ⟨n, hn, rfl⟩ := Assignment.eval_extract.1 hv
    obtain ⟨x, y, hx, hy, rfl⟩ := Assignment.eval_concat.1 hn
    exact Assignment.eval_extract.2
      ⟨x, hx, (range_append_high (Assignment.eval_lt hl hy) hlo _).symm⟩
  | case4 o w m l hlo hhi hall ih =>
    simp only [WellFormed, width_concat] at h
    obtain ⟨⟨hm, hl, -⟩, hw, hr⟩ := h
    have hnode : (Expr.extract l o w).WellFormed := by
      simp only [WellFormed]
      exact ⟨hl, hw, hhi⟩
    refine Refines.trans ⟨hnode, rfl, fun {v} hv ↦ ?_⟩ (ih hnode)
    obtain ⟨n, hn, rfl⟩ := Assignment.eval_extract.1 hv
    obtain ⟨x, y, hx, hy, rfl⟩ := Assignment.eval_concat.1 hn
    exact Assignment.eval_extract.2
      ⟨y, hy, (range_append_low (Assignment.eval_lt hl hy) hhi).symm⟩
  | case5 o w m l hlo hhi low hall ihm ihl =>
    have hrange := h.width_range
    simp only [WellFormed, width_concat, width_extract, maxWidth_eq] at h hrange
    obtain ⟨⟨hm, hl, -⟩, hw, hr⟩ := h
    have hlow : low = l.width - o := rfl
    have hmnode : (Expr.extract m 0 (w - low)).WellFormed := by
      simp only [WellFormed]
      exact ⟨hm, by omega, by omega⟩
    have hlnode : (Expr.extract l o low).WellFormed := by
      simp only [WellFormed]
      exact ⟨hl, by omega, by omega⟩
    have hm' := ihm hmnode
    have hl' := ihl hlnode
    have hmw : (extractCore m 0 (w - low)).width = w - low := hm'.width_eq
    have hlw : (extractCore l o low).width = low := hl'.width_eq
    have hnode : (Expr.concat (extractCore m 0 (w - low)) (extractCore l o low)).WellFormed := by
      simp only [WellFormed, maxWidth_eq]
      exact ⟨hm'.wellFormed, hl'.wellFormed, by omega⟩
    refine Refines.trans ⟨hnode, ?_, fun {v} hv ↦ ?_⟩ (concatCore_refines hnode)
    · simp only [width_concat, width_extract]
      omega
    · obtain ⟨n, hn, rfl⟩ := Assignment.eval_extract.1 hv
      obtain ⟨x, y, hx, hy, rfl⟩ := Assignment.eval_concat.1 hn
      refine Assignment.eval_concat.2
        ⟨_, _, hm'.eval_eq (Assignment.eval_extract.2 ⟨x, hx, rfl⟩),
          hl'.eval_eq (Assignment.eval_extract.2 ⟨y, hy, rfl⟩), ?_⟩
      rw [hlw, range_append (Assignment.eval_lt hl hy) (by omega) (by omega)]
  | case6 o w inner io iw hall ih =>
    simp only [WellFormed, width_extract] at h
    obtain ⟨⟨hi, hiw, hir⟩, hw, hr⟩ := h
    have hnode : (Expr.extract inner (io + o) w).WellFormed := by
      simp only [WellFormed]
      exact ⟨hi, hw, by omega⟩
    refine Refines.trans ⟨hnode, rfl, fun {v} hv ↦ ?_⟩ (ih hnode)
    obtain ⟨n, hn, rfl⟩ := Assignment.eval_extract.1 hv
    obtain ⟨x, hx, rfl⟩ := Assignment.eval_extract.1 hn
    exact Assignment.eval_extract.2 ⟨x, hx, (range_range hr x).symm⟩
  | case7 o w inner zw hlow hall ih =>
    simp only [WellFormed, width_zext] at h
    obtain ⟨⟨hi, -, -⟩, hw, -⟩ := h
    have hnode : (Expr.extract inner o w).WellFormed := by
      simp only [WellFormed]
      exact ⟨hi, hw, hlow⟩
    refine Refines.trans ⟨hnode, rfl, fun {v} hv ↦ ?_⟩ (ih hnode)
    obtain ⟨n, hn, rfl⟩ := Assignment.eval_extract.1 hv
    rw [Assignment.eval_zext] at hn
    exact Assignment.eval_extract.2 ⟨n, hn, rfl⟩
  | case8 o w inner zw hlow hhigh hall =>
    have hrange := h.width_range
    simp only [WellFormed, width_zext] at h
    refine ⟨word_wellFormed _ hrange.1 hrange.2, rfl, fun {v} hv ↦ ?_⟩
    obtain ⟨n, hn, rfl⟩ := Assignment.eval_extract.1 hv
    rw [Assignment.eval_zext] at hn
    rw [range_beyond (Assignment.eval_lt h.1.1 hn) hhigh, Assignment.eval_word, Nat.zero_mod]
  | case9 => exact .refl h
  | case10 => exact .refl h

end Expr

end Symex
