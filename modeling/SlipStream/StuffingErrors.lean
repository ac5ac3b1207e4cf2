import SlipStream.Stuffing

namespace SlipStream.StuffingErrors

open Stuffing

variable {α : Type} [DecidableEq α] (k : Code α)

/-- Read symbols inside a frame, from the middle of an escape or not: what they
stand for, and whether they end in the middle of one. Neither the end of the
frame nor a broken escape may come up. -/
def read : Bool → List α → Option (List α × Bool)
  | e, [] => some ([], e)
  | false, c :: xs =>
    if c = k.stop then none
    else if c = k.esc then read true xs
    else (read false xs).map fun r => (c :: r.1, r.2)
  | true, c :: xs =>
    if c = k.stopMark then (read false xs).map fun r => (k.stop :: r.1, r.2)
    else if c = k.escMark then (read false xs).map fun r => (k.esc :: r.1, r.2)
    else none

theorem read_append (e : Bool) (xs ys : List α) :
    read k e (xs ++ ys) =
      (read k e xs).bind fun r => (read k r.2 ys).map fun s => (r.1 ++ s.1, s.2) := by
  induction xs generalizing e with
  | nil => simp [read]
  | cons c xs ih =>
    cases e with
    | false =>
      simp only [List.cons_append, read]
      split_ifs
      · rfl
      · exact ih true
      · rw [ih]
        cases read k false xs with
        | none => rfl
        | some r => simp [Function.comp_def]
    | true =>
      simp only [List.cons_append, read]
      split_ifs
      all_goals
        first
          | rfl
          | rw [ih]
            cases read k false xs with
            | none => rfl
            | some r => simp [Function.comp_def]

variable {k} {e e' : Bool} {xs ys s t : List α}

theorem read_append_some {r : List α × Bool} (h : read k e (xs ++ ys) = some r) :
    ∃ s e' t, read k e xs = some (s, e') ∧ read k e' ys = some (t, r.2) ∧ r.1 = s ++ t := by
  rw [read_append] at h
  obtain ⟨⟨s, e'⟩, hs, h⟩ := Option.bind_eq_some_iff.mp h
  obtain ⟨⟨t, e''⟩, ht, rfl⟩ := Option.map_eq_some_iff.mp h
  exact ⟨s, e', t, hs, ht, rfl⟩

theorem read_stuff (p : List α) : read k false (stuff k p) = some (p, false) := by
  induction p with
  | nil => rfl
  | cons c p ih =>
    by_cases hs : c = k.stop
    · subst hs
      rw [stuff_cons, stuffOne_stop]
      simp [read, k.esc_ne_stop, ih]
    · by_cases he : c = k.esc
      · subst he
        rw [stuff_cons, stuffOne_esc]
        simp [read, k.esc_ne_stop, k.stopMark_ne_escMark.symm, ih]
      · rw [stuff_cons, stuffOne_other k hs he]
        simp [read, hs, he, ih]

/-- The three ways to read one more symbol. -/
theorem read_cons {c : α} {r : List α × Bool} (h : read k e (c :: xs) = some r) :
    (e = false ∧ c ≠ k.stop ∧ c = k.esc ∧ read k true xs = some r) ∨
    (e = false ∧ c ≠ k.stop ∧ c ≠ k.esc ∧ ∃ t, read k false xs = some (t, r.2) ∧ r.1 = c :: t) ∨
    (e = true ∧ (c = k.stopMark ∨ c = k.escMark) ∧
      ∃ d t, read k false xs = some (t, r.2) ∧ r.1 = d :: t) := by
  cases e with
  | false =>
    simp only [read] at h
    split_ifs at h with hs he
    · exact Or.inl ⟨rfl, hs, he, h⟩
    · obtain ⟨⟨t, e'⟩, ht, rfl⟩ := Option.map_eq_some_iff.mp h
      exact Or.inr (Or.inl ⟨rfl, hs, he, t, ht, rfl⟩)
  | true =>
    simp only [read] at h
    split_ifs at h with hs he
    · obtain ⟨⟨t, e'⟩, ht, rfl⟩ := Option.map_eq_some_iff.mp h
      exact Or.inr (Or.inr ⟨rfl, Or.inl hs, k.stop, t, ht, rfl⟩)
    · obtain ⟨⟨t, e'⟩, ht, rfl⟩ := Option.map_eq_some_iff.mp h
      exact Or.inr (Or.inr ⟨rfl, Or.inr he, k.esc, t, ht, rfl⟩)

theorem stop_notMem_of_read {r : List α × Bool} (h : read k e xs = some r) : k.stop ∉ xs := by
  induction xs generalizing e r with
  | nil => exact List.not_mem_nil
  | cons c xs ih =>
    obtain ⟨_, hc, _, hr⟩ | ⟨_, hc, _, t, hr, _⟩ | ⟨_, hc, d, t, hr, _⟩ := read_cons h
    · exact List.not_mem_cons_of_ne_of_not_mem hc.symm (ih hr)
    · exact List.not_mem_cons_of_ne_of_not_mem hc.symm (ih hr)
    · refine List.not_mem_cons_of_ne_of_not_mem ?_ (ih hr)
      obtain rfl | rfl := hc
      · exact k.stopMark_ne_stop.symm
      · exact k.escMark_ne_stop.symm

/-- Each symbol stands for at most one, and half an escape for none yet. -/
theorem length_read (h : read k e xs = some (s, e')) :
    s.length + e'.toNat ≤ xs.length + e.toNat ∧
      (xs ≠ [] → s.length + e'.toNat ≤ xs.length) := by
  induction xs generalizing e s e' with
  | nil =>
    obtain ⟨rfl, rfl⟩ := Prod.mk.inj (Option.some.inj h)
    exact ⟨Nat.le_refl _, fun hne => absurd rfl hne⟩
  | cons c xs ih =>
    have hone : s.length + e'.toNat ≤ xs.length + 1 := by
      obtain ⟨_, _, _, hr⟩ | ⟨_, _, _, t, hr, rfl⟩ | ⟨_, _, d, t, hr, rfl⟩ := read_cons h
      · exact (ih hr).1
      · have hle := (ih hr).1
        simp only [Bool.toNat_false, List.length_cons] at hle ⊢
        omega
      · have hle := (ih hr).1
        simp only [Bool.toNat_false, List.length_cons] at hle ⊢
        omega
    exact ⟨Nat.le_trans hone (Nat.le_add_right _ _), fun _ => hone⟩

/-- Two lists that are the same but for at most `n` symbols in a row. -/
def Near (n : Nat) (b b' : List α) : Prop :=
  ∃ a s t c, b = a ++ s ++ c ∧ b' = a ++ t ++ c ∧ s.length = t.length ∧ s.length ≤ n

omit [DecidableEq α] in
theorem near_refl (n : Nat) (b : List α) : Near n b b :=
  ⟨b, [], [], [], by simp, by simp, rfl, Nat.zero_le n⟩

omit [DecidableEq α] in
theorem near_of_short {n : Nat} {b b' : List α} (hlen : b.length = b'.length) (h : b.length ≤ n) :
    Near n b b' := ⟨[], b, b', [], by simp, by simp, hlen, h⟩

omit [DecidableEq α] in
theorem near_symm {n : Nat} {b b' : List α} (h : Near n b b') : Near n b' b := by
  obtain ⟨a, s, t, c, hb, hb', hlen, hle⟩ := h
  exact ⟨a, t, s, c, hb', hb, hlen.symm, hlen ▸ hle⟩

omit [DecidableEq α] in
theorem near_append {n : Nat} {b b' : List α} (a : List α) (h : Near n b b') :
    Near n (a ++ b) (a ++ b') := by
  obtain ⟨a', s, t, c, rfl, rfl, hlen, hle⟩ := h
  exact ⟨a ++ a', s, t, c, by simp, by simp, hlen, hle⟩

omit [DecidableEq α] in
theorem window_of_near {n : Nat} {b b' : List α} (h : Near n b b') :
    ∃ k, ∀ i, b'[i]? ≠ b[i]? → k ≤ i ∧ i < k + n := by
  obtain ⟨a, s, t, c, rfl, rfl, hlen, hle⟩ := h
  refine ⟨a.length, ?_⟩
  intro i hi
  by_contra hout
  apply hi
  obtain hlt | hge := Nat.lt_or_ge i a.length
  · rw [List.append_assoc, List.append_assoc, List.getElem?_append_left hlt,
      List.getElem?_append_left hlt]
  · have hlong : a.length + n ≤ i := by omega
    have hst : (a ++ t).length = (a ++ s).length := by
      rw [List.length_append, List.length_append, hlen]
    have hbehind : (a ++ s).length ≤ i := by
      rw [List.length_append]
      omega
    rw [List.getElem?_append_right hbehind, List.getElem?_append_right (hst ▸ hbehind), hst]

omit [DecidableEq α] in
/-- Two lists of one length that differ in a window are split alike by it. -/
theorem split_at_window {xs ys : List α} {k n : Nat} (hlen : ys.length = xs.length)
    (hwin : ∀ i, ys[i]? ≠ xs[i]? → k ≤ i ∧ i < k + n) :
    ∃ u x y v, xs = u ++ (x ++ v) ∧ ys = u ++ (y ++ v) ∧ x.length = y.length ∧ x.length ≤ n := by
  have hsplit (zs : List α) : zs = zs.take k ++ ((zs.drop k).take n ++ zs.drop (k + n)) := by
    rw [← List.drop_drop, List.take_append_drop, List.take_append_drop]
  have hsame (i : Nat) (hi : i < k ∨ k + n ≤ i) : ys[i]? = xs[i]? := by
    by_contra hne
    have := hwin i hne
    omega
  have htake : ys.take k = xs.take k := by
    apply List.ext_getElem?
    intro i
    rw [List.getElem?_take, List.getElem?_take]
    split_ifs with hi
    · exact hsame i (Or.inl hi)
    · rfl
  have hdrop : ys.drop (k + n) = xs.drop (k + n) := by
    apply List.ext_getElem?
    intro i
    rw [List.getElem?_drop, List.getElem?_drop]
    exact hsame _ (Or.inr (Nat.le_add_right _ _))
  refine ⟨xs.take k, (xs.drop k).take n, (ys.drop k).take n, xs.drop (k + n), hsplit xs, ?_, ?_, ?_⟩
  · rw [← htake, ← hdrop]
    exact hsplit ys
  · rw [List.length_take, List.length_take, List.length_drop, List.length_drop, hlen]
  · exact List.length_take_le n _

omit [DecidableEq α] in
theorem near_mono {n n' : Nat} {b b' : List α} (h : Near n b b') (hn : n ≤ n') :
    Near n' b b' := by
  obtain ⟨a, s, t, c, hb, hb', hlen, hle⟩ := h
  exact ⟨a, s, t, c, hb, hb', hlen, Nat.le_trans hle hn⟩

omit [DecidableEq α] in
theorem split_of_length_le {x v z w : List α} (h : z ++ w = x ++ v) (hle : x.length ≤ z.length) :
    ∃ u, z = x ++ u ∧ v = u ++ w := by
  obtain ⟨u, rfl, hu⟩ | h := List.append_eq_append_iff.mp h
  · rw [List.length_append] at hle
    have hnil : u = [] := List.eq_nil_of_length_eq_zero (by omega)
    subst hnil
    exact ⟨[], by simp, by simpa using hu.symm⟩
  · exact h

omit [DecidableEq α] in
theorem eq_of_first {c : α} {w w' r r' : List α} (hw : c ∉ w) (hw' : c ∉ w')
    (h : w ++ c :: r = w' ++ c :: r') : w = w' := by
  have hone {w w' r r' : List α} (hw : c ∉ w) (h : w ++ c :: r = w' ++ c :: r')
      (hle : w'.length ≤ w.length) : w = w' := by
    obtain ⟨u, rfl, hu⟩ := split_of_length_le h hle
    cases u with
    | nil => exact List.append_nil w'
    | cons d u =>
      obtain ⟨rfl, -⟩ := List.cons.inj hu
      exact absurd (List.mem_append_right w' List.mem_cons_self) hw
  obtain hle | hle := Nat.le_total w'.length w.length
  · exact hone hw h hle
  · exact (hone hw' h.symm hle).symm

theorem eq_of_stuff {m m' : List α} (h : stuff k m = stuff k m') : m = m' := by
  have hm := read_stuff (k := k) m
  rw [h, read_stuff] at hm
  exact (congrArg Prod.fst (Option.some.inj hm)).symm

/-- A frame that ends before a change is the same without it. -/
theorem eq_of_before {m m' u w w' r r' : List α} (h : stuff k m ++ k.stop :: r = u ++ w)
    (h' : stuff k m' ++ k.stop :: r' = u ++ w') (hlt : (stuff k m).length < u.length) :
    m = m' := by
  obtain ⟨t, rfl, ht⟩ := split_of_length_le h.symm (Nat.le_of_lt hlt)
  cases t with
  | nil =>
    rw [List.append_nil] at hlt
    exact absurd hlt (Nat.lt_irrefl _)
  | cons d t =>
    obtain ⟨rfl, -⟩ := List.cons.inj ht
    rw [List.append_assoc, List.cons_append] at h'
    exact (eq_of_stuff (eq_of_first (stop_notMem_stuff k m') (stop_notMem_stuff k m) h')).symm

theorem length_le_of_read {z b : List α} (h : read k e z = some (b, false)) :
    b.length ≤ z.length := by
  cases z with
  | nil =>
    obtain ⟨rfl, -⟩ := Prod.mk.inj (Option.some.inj h)
    exact Nat.le_refl _
  | cons c z => exact (length_read h).2 (List.cons_ne_nil c z)

theorem near_in_step {n : Nat} {s s' b b' z : List α} (h : read k e z = some (b, false))
    (h' : read k e z = some (b', false)) (hlen : (s ++ b).length = (s' ++ b').length)
    (hs : s.length ≤ n) : Near n (s ++ b) (s' ++ b') := by
  obtain ⟨rfl, -⟩ := Prod.mk.inj (Option.some.inj (h.symm.trans h'))
  rw [List.length_append, List.length_append] at hlen
  exact ⟨[], s, s', b, by simp, by simp, by omega, hs⟩

section Window

variable (hstop : k.stopMark ≠ k.esc) (hesc : k.escMark ≠ k.esc)
include hstop hesc

/-- Behind a change one reader may be in the middle of an escape where the other
is not. They fall into step with the next symbol. -/
theorem near_out_of_step {n : Nat} {s t b b' z : List α} (h : read k false z = some (b, false))
    (h' : read k true z = some (b', false)) (hlen : (s ++ b).length = (t ++ b').length)
    (ht : t.length + 1 ≤ n) : Near n (s ++ b) (t ++ b') := by
  cases z with
  | nil => cases h'
  | cons c z =>
    obtain ⟨hf, _⟩ | ⟨hf, _⟩ | ⟨_, hc, d, w, hw, rfl⟩ := read_cons h'
    · cases hf
    · cases hf
    have hmark : c ≠ k.esc := by
      obtain rfl | rfl := hc
      · exact hstop
      · exact hesc
    obtain ⟨_, _, he, _⟩ | ⟨_, _, _, w', hw', rfl⟩ | ⟨hf, _⟩ := read_cons h
    · exact absurd he hmark
    · obtain ⟨rfl, -⟩ := Prod.mk.inj (Option.some.inj (hw.symm.trans hw'))
      simp only [List.length_append, List.length_cons] at hlen
      refine ⟨[], s ++ [c], t ++ [d], w, by simp, by simp, ?_, ?_⟩
      · simp only [List.length_append, List.length_cons, List.length_nil]
        omega
      · simp only [List.length_append, List.length_cons, List.length_nil]
        omega
    · cases hf

theorem near_of_read {x y v r r' z z' b b' : List α} (hx : x.length = y.length)
    (hz : z ++ k.stop :: r = x ++ v) (hz' : z' ++ k.stop :: r' = y ++ v)
    (h : read k e z = some (b, false)) (h' : read k e z' = some (b', false))
    (hlen : b.length = b'.length) : Near x.length b b' := by
  have hb := length_le_of_read h
  have hb' := length_le_of_read h'
  -- a frame that ends inside the change has nothing behind it
  obtain hlt | hge := Nat.lt_or_ge z.length x.length
  · exact near_of_short hlen (by omega)
  obtain hlt' | hge' := Nat.lt_or_ge z'.length y.length
  · exact near_of_short hlen (by omega)
  obtain ⟨w, rfl, hw⟩ := split_of_length_le hz hge
  obtain ⟨w', rfl, hw'⟩ := split_of_length_le hz' hge'
  obtain ⟨s, e₁, t, hs, ht, rfl⟩ := read_append_some h
  obtain ⟨s', e₂, t', hs', ht', rfl⟩ := read_append_some h'
  obtain rfl := eq_of_first (stop_notMem_of_read ht) (stop_notMem_of_read ht') (hw.symm.trans hw')
  have hle := length_read hs
  have hle' := length_read hs'
  by_cases hnil : x = []
  · obtain rfl : y = [] := List.eq_nil_of_length_eq_zero (by rw [← hx, hnil]; rfl)
    subst hnil
    rw [hs] at hs'
    obtain ⟨rfl, rfl⟩ := Prod.mk.inj (Option.some.inj hs')
    obtain ⟨rfl, -⟩ := Prod.mk.inj (Option.some.inj (ht.symm.trans ht'))
    exact near_refl _ _
  have hnil' : y ≠ [] := by
    intro hy
    rw [hy, List.length_nil] at hx
    exact hnil (List.eq_nil_of_length_eq_zero hx)
  have hx' := hle.2 hnil
  have hy' := hle'.2 hnil'
  rw [← hx] at hy'
  cases e₁ with
  | false =>
    cases e₂ with
    | false => exact near_in_step ht ht' hlen hx'
    | true => exact near_out_of_step hstop hesc ht ht' hlen hy'
  | true =>
    cases e₂ with
    | false => exact near_symm (near_out_of_step hstop hesc ht' ht hlen.symm hx')
    | true => exact near_in_step ht ht' hlen (Nat.le_of_succ_le hx')

/-- A change of `n` symbols in a row in a stream of frames that leaves the length
of the first payload as it was changes at most `n` symbols in a row of it. -/
theorem near_of_stuffed {m m' u x y v r r' : List α} (hx : x.length = y.length)
    (h : stuff k m ++ k.stop :: r = u ++ (x ++ v)) (h' : stuff k m' ++ k.stop :: r' = u ++ (y ++ v))
    (hlen : m.length = m'.length) : Near x.length m m' := by
  obtain hlt | hge := Nat.lt_or_ge (stuff k m).length u.length
  · rw [eq_of_before h h' hlt]
    exact near_refl _ m'
  obtain hlt' | hge' := Nat.lt_or_ge (stuff k m').length u.length
  · rw [eq_of_before h' h hlt']
    exact near_refl _ m
  obtain ⟨z, hz, hv⟩ := split_of_length_le h hge
  obtain ⟨z', hz', hv'⟩ := split_of_length_le h' hge'
  have hm := read_stuff (k := k) m
  have hm' := read_stuff (k := k) m'
  rw [hz] at hm
  rw [hz'] at hm'
  obtain ⟨a, e, b, ha, hb, rfl⟩ := read_append_some hm
  obtain ⟨a', e', b', ha', hb', rfl⟩ := read_append_some hm'
  obtain ⟨rfl, rfl⟩ := Prod.mk.inj (Option.some.inj (ha.symm.trans ha'))
  rw [List.length_append, List.length_append, Nat.add_left_cancel_iff] at hlen
  exact near_append a (near_of_read hstop hesc hx hv.symm hv'.symm hb hb' hlen)

end Window

end SlipStream.StuffingErrors
