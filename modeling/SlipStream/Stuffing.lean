import Mathlib.Data.List.Basic

namespace SlipStream.Stuffing

/-- A stuffing code over an alphabet: `stop` ends a frame, and inside a frame
`stop` and `esc` are sent as `esc` followed by their marks. -/
structure Code (α : Type) where
  stop : α
  esc : α
  stopMark : α
  escMark : α
  esc_ne_stop : esc ≠ stop
  stopMark_ne_stop : stopMark ≠ stop
  escMark_ne_stop : escMark ≠ stop
  stopMark_ne_escMark : stopMark ≠ escMark

variable {α : Type} [DecidableEq α] (k : Code α)

def stuffOne (c : α) : List α :=
  if c = k.stop then [k.esc, k.stopMark] else if c = k.esc then [k.esc, k.escMark] else [c]

def stuff (p : List α) : List α := p.flatMap (stuffOne k)

/-- What ends a scan: the end of a frame, a broken escape, or the input. -/
inductive Verdict (α : Type) where
  | stopped (rest : List α)
  | badEscape (c : α) (rest : List α)
  | truncated
  | exhausted
  deriving DecidableEq

def Verdict.tail : Verdict α → List α
  | .stopped rest => k.stop :: rest
  | .badEscape c rest => k.esc :: c :: rest
  | .truncated => [k.esc]
  | .exhausted => []

/-- Undo the stuffing as far as it goes. -/
def scan : List α → List α × Verdict α
  | [] => ([], .exhausted)
  | c :: xs =>
    if c = k.stop then ([], .stopped xs)
    else if c = k.esc then
      match xs with
      | [] => ([], .truncated)
      | m :: ys =>
        if m = k.stopMark then (k.stop :: (scan ys).1, (scan ys).2)
        else if m = k.escMark then (k.esc :: (scan ys).1, (scan ys).2)
        else ([], .badEscape m ys)
    else (c :: (scan xs).1, (scan xs).2)

/-- A verdict a scan can end with: a bad escape is one whose second symbol is
no mark. -/
def Verdict.Valid : Verdict α → Prop
  | .badEscape c _ => c ≠ k.stopMark ∧ c ≠ k.escMark
  | _ => True

@[simp] theorem stuff_nil : stuff k [] = [] := rfl

@[simp] theorem stuff_cons (c : α) (p : List α) :
    stuff k (c :: p) = stuffOne k c ++ stuff k p := rfl

@[simp] theorem stuff_append (p q : List α) : stuff k (p ++ q) = stuff k p ++ stuff k q :=
  List.flatMap_append

theorem stuffOne_stop : stuffOne k k.stop = [k.esc, k.stopMark] := if_pos rfl

theorem stuffOne_esc : stuffOne k k.esc = [k.esc, k.escMark] := by
  simp [stuffOne, k.esc_ne_stop]

theorem stuffOne_other {c : α} (hs : c ≠ k.stop) (he : c ≠ k.esc) : stuffOne k c = [c] := by
  simp [stuffOne, hs, he]

theorem stop_notMem_stuffOne (c : α) : k.stop ∉ stuffOne k c := by
  simp only [stuffOne]
  split_ifs with hs he
  · simp [k.esc_ne_stop.symm, k.stopMark_ne_stop.symm]
  · simp [k.esc_ne_stop.symm, k.escMark_ne_stop.symm]
  · simpa using Ne.symm hs

theorem stop_notMem_stuff (p : List α) : k.stop ∉ stuff k p := by
  simp only [stuff, List.mem_flatMap, not_exists, not_and]
  exact fun c _ => stop_notMem_stuffOne k c

theorem scan_stop (xs : List α) : scan k (k.stop :: xs) = ([], .stopped xs) := by
  rw [scan.eq_def]
  simp

theorem scan_stopMark (xs : List α) :
    scan k (k.esc :: k.stopMark :: xs) = (k.stop :: (scan k xs).1, (scan k xs).2) := by
  rw [scan.eq_def]
  simp [k.esc_ne_stop]

theorem scan_escMark (xs : List α) :
    scan k (k.esc :: k.escMark :: xs) = (k.esc :: (scan k xs).1, (scan k xs).2) := by
  rw [scan.eq_def]
  simp [k.esc_ne_stop, k.stopMark_ne_escMark.symm]

theorem scan_badEscape {c : α} (hs : c ≠ k.stopMark) (he : c ≠ k.escMark) (xs : List α) :
    scan k (k.esc :: c :: xs) = ([], .badEscape c xs) := by
  rw [scan.eq_def]
  simp [k.esc_ne_stop, hs, he]

theorem scan_truncated : scan k [k.esc] = ([], .truncated) := by
  rw [scan.eq_def]
  simp [k.esc_ne_stop]

theorem scan_other {c : α} (hs : c ≠ k.stop) (he : c ≠ k.esc) (xs : List α) :
    scan k (c :: xs) = (c :: (scan k xs).1, (scan k xs).2) := by
  rw [scan.eq_def]
  simp [hs, he]

theorem scan_stuffOne_append (c : α) (xs : List α) :
    scan k (stuffOne k c ++ xs) = (c :: (scan k xs).1, (scan k xs).2) := by
  by_cases hs : c = k.stop
  · subst hs
    rw [stuffOne_stop]
    exact scan_stopMark k xs
  · by_cases he : c = k.esc
    · subst he
      rw [stuffOne_esc]
      exact scan_escMark k xs
    · rw [stuffOne_other k hs he]
      exact scan_other k hs he xs

theorem scan_stuff_append (p xs : List α) :
    scan k (stuff k p ++ xs) = (p ++ (scan k xs).1, (scan k xs).2) := by
  induction p with
  | nil => rfl
  | cons c p ih =>
    rw [stuff_cons, List.append_assoc, scan_stuffOne_append, ih]
    rfl

theorem scan_tail {v : Verdict α} (hv : v.Valid k) : scan k (v.tail k) = ([], v) := by
  cases v with
  | stopped rest => exact scan_stop k rest
  | badEscape c rest => exact scan_badEscape k hv.1 hv.2 rest
  | truncated => exact scan_truncated k
  | exhausted => rfl

theorem scan_valid (xs : List α) : (scan k xs).2.Valid k := by
  induction xs using scan.induct k with
  | case1 => trivial
  | case2 xs => rw [scan_stop]; trivial
  | case3 => rw [scan_truncated]; trivial
  | case4 xs _ ih => rw [scan_stopMark]; exact ih
  | case5 xs _ _ ih => rw [scan_escMark]; exact ih
  | case6 c xs hs he => rw [scan_badEscape k hs he]; exact ⟨hs, he⟩
  | case7 c xs hs he ih => rw [scan_other k hs he]; exact ih

theorem stuff_scan (xs : List α) : stuff k (scan k xs).1 ++ (scan k xs).2.tail k = xs := by
  induction xs using scan.induct k with
  | case1 => rfl
  | case2 xs => rw [scan_stop]; rfl
  | case3 => rw [scan_truncated]; rfl
  | case4 xs _ ih => rw [scan_stopMark, stuff_cons, stuffOne_stop, List.append_assoc, ih]; rfl
  | case5 xs _ _ ih => rw [scan_escMark, stuff_cons, stuffOne_esc, List.append_assoc, ih]; rfl
  | case6 c xs hs he => rw [scan_badEscape k hs he]; rfl
  | case7 c xs hs he ih =>
    rw [scan_other k hs he, stuff_cons, stuffOne_other k hs he, List.append_assoc, ih]
    rfl

/-- Every input has exactly one reading: a stuffed prefix followed by what
stopped the scan. -/
theorem scan_eq_iff (xs p : List α) (v : Verdict α) :
    scan k xs = (p, v) ↔ v.Valid k ∧ xs = stuff k p ++ v.tail k := by
  constructor
  · intro h
    have hv := scan_valid k xs
    have hx := stuff_scan k xs
    rw [h] at hv hx
    exact ⟨hv, hx.symm⟩
  · rintro ⟨hv, rfl⟩
    rw [scan_stuff_append, scan_tail k hv, List.append_nil]

end SlipStream.Stuffing
