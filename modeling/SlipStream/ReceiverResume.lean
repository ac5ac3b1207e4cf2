import SlipStream.ReceiverLimits

namespace SlipStream.ReceiverResume

open Stuffing Transducer Receiver ReceiverLimits

variable {α : Type} [DecidableEq α] (k : Code α)

/-- A receiver that takes a symbol it has no place for as the first one after a
fresh start. With `again` it does the same with a symbol that breaks an escape,
and without it drops that one. -/
def hear (again : Bool) (n : Nat) (s : Partial α) (c : α) : Partial α × List (Signal α) :=
  if n < s.acc.length + 2 ∨
      again = true ∧ s.esc = true ∧ c ≠ k.stopMark ∧ c ≠ k.escMark then
    assemble k .empty c
  else assemble k s c

/-- The messages that a fresh receiver gets out of a stream. -/
def heard (again : Bool) (n : Nat) (xs : List α) : List (List α) :=
  messages (run (hear k again n) .empty xs).2

/-- What is left of a payload that is cut into blocks of `n - 1` symbols. -/
def cut (n : Nat) (p : List α) : List α := p.drop ((n - 1) * (p.length / (n - 1)))

section Hear

variable {k} {n : Nat} (again : Bool)

theorem hear_of_full {s : Partial α} (h : n < s.acc.length + 2) (c : α) :
    hear k again n s c = assemble k .empty c := if_pos (Or.inl h)

theorem hear_of_room {w : List α} (h : w.length + 2 ≤ n) (c : α) :
    hear k again n ⟨w, false⟩ c = assemble k ⟨w, false⟩ c :=
  if_neg (by simp [Nat.not_lt.mpr h])

theorem hear_empty (hn : 2 ≤ n) (c : α) :
    hear k again n .empty c = assemble k .empty c := hear_of_room again hn c

theorem hear_mark {w : List α} (h : w.length + 2 ≤ n) {c : α}
    (hc : c = k.stopMark ∨ c = k.escMark) :
    hear k again n ⟨w, true⟩ c = assemble k ⟨w, true⟩ c := by
  apply if_neg
  rintro (hfull | ⟨-, -, hs, he⟩)
  · exact Nat.not_lt.mpr h hfull
  · obtain rfl | rfl := hc
    · exact hs rfl
    · exact he rfl

theorem hear_other {w : List α} (h : w.length + 2 ≤ n) {c : α} (hs : c ≠ k.stopMark)
    (he : c ≠ k.escMark) :
    hear k again n ⟨w, true⟩ c =
      if again then assemble k .empty c else (.empty, [.badEscape]) := by
  cases again with
  | true => exact if_pos (Or.inr ⟨rfl, rfl, hs, he⟩)
  | false =>
    rw [hear, if_neg (by simp [Nat.not_lt.mpr h]), assemble_badEscape k w hs he]
    rfl

/-- Where the next symbol of a payload goes: behind the others, or to the front
of a buffer that is full. -/
def put (n : Nat) (w : List α) (c : α) : List α := if w.length + 2 ≤ n then w ++ [c] else [c]

theorem hear_esc (hn : 2 ≤ n) (w : List α) :
    ∃ w', w'.length + 2 ≤ n ∧ hear k again n ⟨w, false⟩ k.esc = (⟨w', true⟩, []) ∧
      ∀ c, w' ++ [c] = put n w c := by
  by_cases h : w.length + 2 ≤ n
  · refine ⟨w, h, ?_, fun c => (if_pos h).symm⟩
    rw [hear_of_room again h, assemble_esc]
  · refine ⟨[], hn, ?_, fun c => (if_neg h).symm⟩
    rw [hear_of_full again (Nat.not_le.mp h), Partial.empty, assemble_esc]

theorem hear_stop (w : List α) :
    hear k again n ⟨w, false⟩ k.stop =
      (.empty, [.message (if w.length + 2 ≤ n then w else [])]) := by
  by_cases h : w.length + 2 ≤ n
  · rw [hear_of_room again h, assemble_stop, if_pos h]
  · rw [hear_of_full again (Nat.not_le.mp h), if_neg h]
    exact assemble_stop k []

theorem run_hear_stuffOne (hn : 2 ≤ n) (w : List α) (c : α) :
    run (hear k again n) ⟨w, false⟩ (stuffOne k c) = (⟨put n w c, false⟩, []) := by
  obtain ⟨w', hroom, hesc, hput⟩ := hear_esc (k := k) again hn w
  by_cases hs : c = k.stop
  · subst hs
    rw [stuffOne_stop, run_cons, hesc, run_cons, hear_mark again hroom (Or.inl rfl),
      assemble_stopMark, hput]
    rfl
  · by_cases he : c = k.esc
    · subst he
      rw [stuffOne_esc, run_cons, hesc, run_cons, hear_mark again hroom (Or.inr rfl),
        assemble_escMark, hput]
      rfl
    · rw [stuffOne_other k hs he, run_cons]
      by_cases h : w.length + 2 ≤ n
      · rw [hear_of_room again h, assemble_other k w hs he, put, if_pos h]
        rfl
      · rw [hear_of_full again (Nat.not_le.mp h), put, if_neg h, Partial.empty,
          assemble_other k [] hs he]
        rfl

theorem run_hear_stuff (hn : 2 ≤ n) (w p : List α) :
    run (hear k again n) ⟨w, false⟩ (stuff k p) = (⟨p.foldl (put n) w, false⟩, []) := by
  induction p generalizing w with
  | nil => rfl
  | cons c p ih =>
    rw [stuff_cons, run_append, run_hear_stuffOne again hn, ih]
    rfl

/-- The messages do not depend on whether an overflow is signalled. -/
theorem messages_receive (s : Partial α) (xs : List α) :
    messages (run (receive k n) s (feed true xs)).2 = messages (run (hear k false n) s xs).2 := by
  induction xs generalizing s with
  | nil => rfl
  | cons c xs ih =>
    have hstep : (receive k n s (.symbol true c)).1 = (hear k false n s c).1 ∧
        messages (receive k n s (.symbol true c)).2 = messages (hear k false n s c).2 := by
      by_cases hfull : n < s.acc.length + 2
      · rw [receive, if_pos hfull, if_pos rfl, hear_of_full false hfull]
        exact ⟨rfl, rfl⟩
      · rw [receive, if_neg hfull, hear, if_neg (by simp [hfull])]
        exact ⟨rfl, rfl⟩
    rw [feed, List.map_cons, run_cons, run_cons, messages_append, messages_append, hstep.1,
      hstep.2, ← ih]
    rfl

omit [DecidableEq α] in
theorem messages_overflow (q : Nat) : messages (List.replicate q (.overflow : Signal α)) = [] := by
  induction q with
  | zero => rfl
  | succ q ih =>
    rw [List.replicate_succ]
    exact ih

theorem heard_frame (hn : 2 ≤ n) (p rest : List α) :
    heard k again n (stuff k p ++ k.stop :: rest) = cut n p :: heard k again n rest := by
  have hcut : (if (p.foldl (put n) []).length + 2 ≤ n then p.foldl (put n) [] else []) =
      cut n p := by
    have hframe := congrArg (fun r => messages r.2) (run_feed_frame k n hn p)
    simp only [messages_receive, messages_append, messages_overflow] at hframe
    rw [run_append, Partial.empty, run_hear_stuff false hn, run_cons, hear_stop] at hframe
    exact (List.cons_eq_cons.mp hframe).1
  rw [heard, run_append, Partial.empty, run_hear_stuff again hn, run_cons, hear_stop, hcut]
  rfl

theorem heard_stuff (hn : 2 ≤ n) (p : List α) : heard k again n (stuff k p) = [] := by
  rw [heard, Partial.empty, run_hear_stuff again hn]
  rfl

theorem heard_truncated (hn : 2 ≤ n) (p : List α) :
    heard k again n (stuff k p ++ [k.esc]) = [] := by
  obtain ⟨w', -, hesc, -⟩ := hear_esc (k := k) again hn (p.foldl (put n) [])
  rw [heard, run_append, Partial.empty, run_hear_stuff again hn, run_cons, hesc]
  rfl

/-- A symbol that breaks an escape is lost, or goes on as the first of what
follows. -/
theorem heard_badEscape (hn : 2 ≤ n) (p : List α) {c : α} (hs : c ≠ k.stopMark)
    (he : c ≠ k.escMark) (rest : List α) :
    heard k again n (stuff k p ++ k.esc :: c :: rest) =
      heard k again n (if again then c :: rest else rest) := by
  obtain ⟨w', hroom, hesc, -⟩ := hear_esc (k := k) again hn (p.foldl (put n) [])
  rw [heard, run_append, Partial.empty, run_hear_stuff again hn, run_cons, hesc, run_cons,
    hear_other again hroom hs he]
  cases again with
  | true =>
    rw [if_pos rfl, if_pos rfl, heard, run_cons, hear_empty true hn]
    rfl
  | false => rfl

/-- Who hears a broken escape again hears every `stop`. -/
theorem length_hear (s : Partial α) (c : α) :
    (messages (hear k true n s c).2).length = if c = k.stop then 1 else 0 := by
  by_cases hc : c = k.stop
  · subst hc
    rw [if_pos rfl, hear]
    split_ifs with h
    · rw [messages_stop]
      rfl
    · have hesc : ¬ s.esc = true := fun hesc =>
        h (Or.inr ⟨rfl, hesc, k.stopMark_ne_stop.symm, k.escMark_ne_stop.symm⟩)
      rw [messages_stop, if_neg hesc]
      rfl
  · rw [if_neg hc, hear]
    split_ifs <;> rw [messages_assemble k _ hc] <;> rfl

theorem length_hear_le (s : Partial α) (c : α) :
    (messages (hear k false n s c).2).length ≤ if c = k.stop then 1 else 0 := by
  by_cases hc : c = k.stop
  · subst hc
    rw [if_pos rfl, hear]
    split_ifs <;> rw [messages_stop] <;> split_ifs <;> simp
  · rw [if_neg hc, hear]
    split_ifs <;> rw [messages_assemble k _ hc] <;> rfl

theorem length_run_hear (s : Partial α) (xs : List α) :
    (messages (run (hear k true n) s xs).2).length = xs.count k.stop := by
  induction xs generalizing s with
  | nil => rfl
  | cons c xs ih =>
    rw [run_cons, messages_append, List.length_append, length_hear, ih, List.count_cons]
    simp only [beq_iff_eq]
    omega

theorem length_run_hear_le (s : Partial α) (xs : List α) :
    (messages (run (hear k false n) s xs).2).length ≤ xs.count k.stop := by
  induction xs generalizing s with
  | nil => exact Nat.le_refl _
  | cons c xs ih =>
    have hstep := length_hear_le (k := k) (n := n) s c
    have hrest := ih (hear k false n s c).1
    rw [run_cons, messages_append, List.length_append, List.count_cons]
    simp only [beq_iff_eq]
    omega

/-- In front of a rest, a payload only changes the message it becomes part of. -/
theorem heard_stuff_append (hn : 2 ≤ n) (q rest : List α) :
    (∀ p r, scan k rest = (p, .stopped r) →
      heard k again n (stuff k q ++ rest) = cut n (q ++ p) :: heard k again n r) ∧
      ((∀ p r, scan k rest ≠ (p, .stopped r)) →
        heard k again n (stuff k q ++ rest) = heard k again n rest) := by
  constructor
  · intro p r hscan
    obtain ⟨-, hrest⟩ := (scan_eq_iff k rest p _).mp hscan
    rw [hrest, ← List.append_assoc, ← stuff_append]
    exact heard_frame again hn (q ++ p) r
  · intro hno
    cases hscan : scan k rest with
    | mk p v =>
      obtain ⟨hv, hrest⟩ := (scan_eq_iff k rest p v).mp hscan
      rw [hrest, ← List.append_assoc, ← stuff_append]
      cases v with
      | stopped r => exact absurd hscan (hno p r)
      | badEscape c r =>
        exact (heard_badEscape again hn (q ++ p) hv.1 hv.2 r).trans
          (heard_badEscape again hn p hv.1 hv.2 r).symm
      | truncated =>
        exact (heard_truncated again hn (q ++ p)).trans (heard_truncated again hn p).symm
      | exhausted =>
        simp only [Verdict.tail, List.append_nil]
        rw [heard_stuff again hn, heard_stuff again hn]

/-- Two receivers that go on in the same way, but with other symbols in front,
hear the same if they did without these and the difference is cut off. -/
theorem heard_eq_iff (hn : 2 ≤ n) (q q' rest : List α) :
    heard k false n (stuff k q ++ rest) = heard k true n (stuff k q' ++ rest) ↔
      (∀ p r, rest = stuff k p ++ k.stop :: r → cut n (q ++ p) = cut n (q' ++ p)) ∧
        heard k false n rest = heard k true n rest := by
  obtain ⟨hstop, hgo⟩ := heard_stuff_append (k := k) false hn q rest
  obtain ⟨hstop', hgo'⟩ := heard_stuff_append (k := k) true hn q' rest
  have hiff (p r : List α) :
      rest = stuff k p ++ k.stop :: r ↔ scan k rest = (p, .stopped r) := by
    rw [scan_eq_iff]
    exact ⟨fun h => ⟨trivial, h⟩, fun h => h.2⟩
  by_cases hscan : ∃ p r, scan k rest = (p, .stopped r)
  · obtain ⟨p, r, hscan⟩ := hscan
    have hrest := (hiff p r).mpr hscan
    rw [hstop p r hscan, hstop' p r hscan, hrest, heard_frame false hn, heard_frame true hn,
      List.cons_eq_cons, List.cons_eq_cons]
    constructor
    · rintro ⟨hcut, hr⟩
      refine ⟨?_, rfl, hr⟩
      intro p' r' h
      have hscan' := (hiff p' r').mp (hrest.trans h)
      rw [hscan] at hscan'
      obtain ⟨rfl, -⟩ := Prod.mk.inj hscan'
      exact hcut
    · rintro ⟨hcut, -, hr⟩
      exact ⟨hcut p r rfl, hr⟩
  · have hno (p r : List α) : scan k rest ≠ (p, .stopped r) := fun h => hscan ⟨p, r, h⟩
    rw [hgo hno, hgo' hno]
    constructor
    · intro h
      exact ⟨fun p r hrest => absurd ((hiff p r).mp hrest) (hno p r), h⟩
    · exact fun h => h.2

end Hear

section Cut

omit [DecidableEq α]

theorem length_cut (n : Nat) (p : List α) : (cut n p).length = p.length % (n - 1) := by
  rw [cut, List.length_drop]
  have h := Nat.div_add_mod p.length (n - 1)
  omega

theorem cut_cons_eq_iff {n : Nat} (hn : 2 ≤ n) {c c' : α} (hne : c ≠ c') (p : List α) :
    cut n (c :: p) = cut n (c' :: p) ↔ n ≤ p.length + 2 := by
  simp only [cut, List.length_cons]
  by_cases hlong : n ≤ p.length + 2
  · have hpos : 0 < (p.length + 1) / (n - 1) := Nat.div_pos (by omega) (by omega)
    obtain ⟨j, hj⟩ : ∃ j, (n - 1) * ((p.length + 1) / (n - 1)) = j + 1 :=
      Nat.exists_eq_succ_of_ne_zero (Nat.mul_ne_zero (by omega) (Nat.ne_of_gt hpos))
    rw [hj, List.drop_succ_cons, List.drop_succ_cons]
    exact iff_of_true rfl hlong
  · have hzero : (p.length + 1) / (n - 1) = 0 := Nat.div_eq_of_lt (by omega)
    rw [hzero, Nat.mul_zero, List.drop_zero, List.drop_zero]
    refine iff_of_false ?_ hlong
    intro h
    exact hne (List.cons_eq_cons.mp h).1

theorem cut_eq_cut_cons_iff {n : Nat} (hn : 2 ≤ n) (c : α) (p : List α) :
    cut n p = cut n (c :: p) ↔ n = 2 := by
  constructor
  · intro h
    have hlen := congrArg List.length h
    rw [length_cut, length_cut, List.length_cons] at hlen
    by_contra hne
    have hsub := Nat.sub_mod_eq_zero_of_mod_eq hlen.symm
    rw [Nat.add_sub_cancel_left, Nat.mod_eq_of_lt (by omega)] at hsub
    cases hsub
  · rintro rfl
    have hnil (q : List α) : cut 2 q = [] := by
      apply List.eq_nil_of_length_eq_zero
      rw [length_cut]
      exact Nat.mod_one _
    rw [hnil, hnil]

end Cut

/-- A symbol `x` behind a run of `t` escapes may be handed over again, with
`rest` to follow, without a message of it being seen. Behind an odd run it breaks
an escape unless it is a mark. Behind an even one the receiver that hears the last
escape again waits for a mark, and the other one does not. -/
structure Spares (n t : Nat) (x : α) (rest : List α) : Prop where
  stop : Odd t → x ≠ k.stop
  data : Odd t → x ≠ k.esc → x ≠ k.stopMark → x ≠ k.escMark → 3 ≤ n →
    ∀ p r, rest ≠ stuff k p ++ k.stop :: r
  mark : Even t → t ≠ 0 → x = k.stopMark ∨ x = k.escMark →
    ∀ p r, rest = stuff k p ++ k.stop :: r → n ≤ p.length + 2

/-- `Spares` at every symbol of a stream, behind a run of `t` escapes. -/
def Spared (n : Nat) : Nat → List α → Prop
  | _, [] => True
  | t, x :: rest => Spares k n t x rest ∧ Spared n (if x = k.esc then t + 1 else 0) rest

theorem spared_iff (n : Nat) (w xs : List α) :
    Spared k n (trailing k.esc w) xs ↔
      ∀ u x rest, xs = u ++ x :: rest → Spares k n (trailing k.esc (w ++ u)) x rest := by
  induction xs generalizing w with
  | nil => simp [Spared]
  | cons x xs ih =>
    have ht : (if x = k.esc then trailing k.esc w + 1 else 0) = trailing k.esc (w ++ [x]) := by
      by_cases hx : x = k.esc
      · simp [trailing, hx]
      · simp [trailing, hx]
    rw [Spared, ht, ih]
    constructor
    · rintro ⟨hhead, htail⟩ u y rest hsplit
      cases u with
      | nil =>
        obtain ⟨rfl, rfl⟩ := List.cons_eq_cons.mp hsplit
        simpa using hhead
      | cons z u =>
        obtain ⟨rfl, hrest⟩ := List.cons_eq_cons.mp hsplit
        simpa using htail u y rest hrest
    · intro h
      refine ⟨by simpa using h [] x xs rfl, ?_⟩
      intro u y rest hsplit
      simpa using h (x :: u) y rest (by rw [hsplit]; rfl)

theorem spares_add_two {n t : Nat} (ht : t ≠ 0) (x : α) (rest : List α) :
    Spares k n (t + 2) x rest ↔ Spares k n t x rest := by
  have hodd : Odd (t + 2) ↔ Odd t := by simp [Nat.odd_add]
  have heven : Even (t + 2) ↔ Even t := by simp [Nat.even_add]
  constructor
  · intro h
    exact ⟨fun ho => h.stop (hodd.mpr ho), fun ho => h.data (hodd.mpr ho),
      fun he _ => h.mark (heven.mpr he) (by omega)⟩
  · intro h
    exact ⟨fun ho => h.stop (hodd.mp ho), fun ho => h.data (hodd.mp ho),
      fun he _ => h.mark (heven.mp he) ht⟩

theorem spared_add_two {n t : Nat} (ht : t ≠ 0) (xs : List α) :
    Spared k n (t + 2) xs ↔ Spared k n t xs := by
  induction xs generalizing t with
  | nil => exact Iff.rfl
  | cons x xs ih =>
    rw [Spared, Spared, spares_add_two k ht]
    by_cases hx : x = k.esc
    · rw [if_pos hx, if_pos hx, Nat.add_right_comm, ih (Nat.succ_ne_zero t)]
    · rw [if_neg hx, if_neg hx]

theorem spares_zero (n : Nat) (x : α) (rest : List α) : Spares k n 0 x rest := by
  refine ⟨?_, ?_, fun _ h => absurd rfl h⟩
  · intro h
    exact absurd h (by decide)
  · intro h
    exact absurd h (by decide)

theorem spared_zero_cons (n : Nat) (x : α) (rest : List α) :
    Spared k n 0 (x :: rest) ↔ Spared k n (if x = k.esc then 1 else 0) rest := by
  rw [Spared]
  exact and_iff_right (spares_zero k n x rest)

theorem not_spared_one_stop (n : Nat) (rest : List α) : ¬ Spared k n 1 (k.stop :: rest) :=
  fun h => h.1.stop (by decide) rfl

theorem spared_one_esc (n : Nat) (rest : List α) :
    Spared k n 1 (k.esc :: rest) ↔ Spared k n 2 rest := by
  have hspares : Spares k n 1 k.esc rest :=
    ⟨fun _ => k.esc_ne_stop, fun _ h => absurd rfl h, fun h => absurd h (by decide)⟩
  rw [Spared, and_iff_right hspares, if_pos rfl]

theorem spared_two_other (n : Nat) {x : α} (hs : x ≠ k.stopMark) (he : x ≠ k.escMark)
    (rest : List α) : Spared k n 2 (x :: rest) ↔ Spared k n 0 (x :: rest) := by
  have hspares : Spares k n 2 x rest :=
    ⟨fun h => absurd h (by decide), fun h => absurd h (by decide),
      fun _ _ hm => absurd hm (not_or.mpr ⟨hs, he⟩)⟩
  rw [spared_zero_cons, Spared, and_iff_right hspares]
  by_cases hx : x = k.esc
  · rw [if_pos hx, if_pos hx]
    exact spared_add_two k (by decide) rest
  · rw [if_neg hx, if_neg hx]

theorem spared_one_data (n : Nat) {x : α} (hstop : x ≠ k.stop) (hesc : x ≠ k.esc)
    (hs : x ≠ k.stopMark) (he : x ≠ k.escMark) (rest : List α) :
    Spared k n 1 (x :: rest) ↔
      (∀ p r, rest = stuff k p ++ k.stop :: r → ¬ 3 ≤ n) ∧ Spared k n 0 rest := by
  rw [Spared, if_neg hesc]
  refine and_congr_left fun _ => ⟨?_, ?_⟩
  · intro h p r hrest hn
    exact h.data (by decide) hesc hs he hn p r hrest
  · intro h
    exact ⟨fun _ => hstop, fun _ _ _ _ hn p r hrest => h p r hrest hn,
      fun heven => absurd heven (by decide)⟩

section Marks

variable (hsm : k.stopMark ≠ k.esc) (hem : k.escMark ≠ k.esc)
include hsm hem

omit [DecidableEq α] in
theorem mark_ne_esc {m : α} (hm : m = k.stopMark ∨ m = k.escMark) : m ≠ k.esc := by
  obtain rfl | rfl := hm
  · exact hsm
  · exact hem

theorem spared_one_mark (n : Nat) {m : α} (hm : m = k.stopMark ∨ m = k.escMark) (rest : List α) :
    Spared k n 1 (m :: rest) ↔ Spared k n 0 rest := by
  have hne : m ≠ k.stop := by
    obtain rfl | rfl := hm
    · exact k.stopMark_ne_stop
    · exact k.escMark_ne_stop
  have hspares : Spares k n 1 m rest :=
    ⟨fun _ => hne, fun _ _ hs he => absurd hm (not_or.mpr ⟨hs, he⟩),
      fun h => absurd h (by decide)⟩
  rw [Spared, and_iff_right hspares, if_neg (mark_ne_esc k hsm hem hm)]

theorem spared_two_mark (n : Nat) {m : α} (hm : m = k.stopMark ∨ m = k.escMark) (rest : List α) :
    Spared k n 2 (m :: rest) ↔
      (∀ p r, rest = stuff k p ++ k.stop :: r → n ≤ p.length + 2) ∧ Spared k n 0 rest := by
  rw [Spared, if_neg (mark_ne_esc k hsm hem hm)]
  refine and_congr_left fun _ => ⟨?_, ?_⟩
  · intro h
    exact h.mark (by decide) (by decide) hm
  · intro h
    exact ⟨fun ho => absurd ho (by decide), fun ho => absurd ho (by decide), fun _ _ _ => h⟩

theorem spared_stuff_append (n : Nat) (p ys : List α) :
    Spared k n 0 (stuff k p ++ ys) ↔ Spared k n 0 ys := by
  induction p with
  | nil => rfl
  | cons c p ih =>
    rw [stuff_cons, List.append_assoc, ← ih]
    by_cases hs : c = k.stop
    · subst hs
      rw [stuffOne_stop, List.cons_append, List.singleton_append, spared_zero_cons, if_pos rfl,
        spared_one_mark k hsm hem n (Or.inl rfl)]
    · by_cases he : c = k.esc
      · subst he
        rw [stuffOne_esc, List.cons_append, List.singleton_append, spared_zero_cons, if_pos rfl,
          spared_one_mark k hsm hem n (Or.inr rfl)]
      · rw [stuffOne_other k hs he, List.singleton_append, spared_zero_cons, if_neg he]

/-- A mark behind two escapes: data for one receiver, and for the other the end
of an escape. -/
theorem heard_mark_iff {n : Nat} (hn : 2 ≤ n) {m : α} (hm : m = k.stopMark ∨ m = k.escMark)
    (rest : List α) :
    heard k false n (m :: rest) = heard k true n (k.esc :: m :: rest) ↔
      (∀ p r, rest = stuff k p ++ k.stop :: r → n ≤ p.length + 2) ∧
        heard k false n rest = heard k true n rest := by
  obtain ⟨c, hc, hne, hmstop⟩ : ∃ c, stuffOne k c = [k.esc, m] ∧ m ≠ c ∧ m ≠ k.stop := by
    obtain rfl | rfl := hm
    · exact ⟨k.stop, stuffOne_stop k, k.stopMark_ne_stop, k.stopMark_ne_stop⟩
    · exact ⟨k.esc, stuffOne_esc k, hem, k.escMark_ne_stop⟩
  have hdata : stuffOne k m = [m] := stuffOne_other k hmstop (mark_ne_esc k hsm hem hm)
  have hiff := heard_eq_iff (k := k) hn [m] [c] rest
  rw [stuff_cons, stuff_cons, stuff_nil, List.append_nil, List.append_nil, hdata, hc] at hiff
  refine hiff.trans (and_congr_left fun _ => forall_congr' fun p => forall_congr' fun r => ?_)
  exact imp_congr_right fun _ => cut_cons_eq_iff hn hne p

/-- One broken escape, from what is known about the shorter streams behind it. -/
theorem heard_broken_iff {n : Nat} (hn : 2 ≤ n) {c : α} (hs : c ≠ k.stopMark) (he : c ≠ k.escMark)
    (rest : List α) (ih : ∀ ys : List α, ys.length ≤ rest.length →
      (heard k false n ys = heard k true n ys ↔ Spared k n 0 ys)) :
    heard k false n rest = heard k true n (c :: rest) ↔ Spared k n 1 (c :: rest) := by
  by_cases hstop : c = k.stop
  · subst hstop
    refine iff_of_false ?_ (not_spared_one_stop k n rest)
    intro h
    have hle := length_run_hear_le (k := k) (n := n) .empty rest
    have hlen := length_run_hear (k := k) (n := n) .empty (k.stop :: rest)
    rw [← heard] at hle hlen
    rw [List.count_cons_self, ← h] at hlen
    omega
  · by_cases hesc : c = k.esc
    · subst hesc
      rw [spared_one_esc]
      cases rest with
      | nil => exact iff_of_true (heard_truncated true hn []).symm trivial
      | cons x r =>
        by_cases hx : x = k.stopMark ∨ x = k.escMark
        · rw [heard_mark_iff k hsm hem hn hx, spared_two_mark k hsm hem n hx,
            ih r (Nat.le_succ _)]
        · obtain ⟨hxs, hxe⟩ := not_or.mp hx
          have hagain : heard k true n (k.esc :: x :: r) = heard k true n (x :: r) :=
            heard_badEscape true hn [] hxs hxe r
          rw [hagain, spared_two_other k n hxs hxe, ih (x :: r) (Nat.le_refl _)]
    · have hiff := heard_eq_iff (k := k) hn [] [c] rest
      rw [stuff_cons, stuff_nil, List.append_nil, List.nil_append,
        stuffOne_other k hstop hesc] at hiff
      rw [spared_one_data k n hstop hesc hs he, ← ih rest (Nat.le_refl _)]
      refine hiff.trans (and_congr_left fun _ => forall_congr' fun p => forall_congr' fun r => ?_)
      refine imp_congr_right fun _ => (cut_eq_cut_cons_iff hn c p).trans ?_
      omega

/-- Handing a symbol that breaks an escape over once more makes no difference to
the messages exactly when every such symbol is spared. -/
theorem heard_eq_heard_iff {n : Nat} (hn : 2 ≤ n) (xs : List α) :
    heard k false n xs = heard k true n xs ↔ Spared k n 0 xs := by
  induction hlen : xs.length using Nat.strong_induction_on generalizing xs with
  | _ len ih =>
    subst hlen
    obtain ⟨hv, hx⟩ := (scan_eq_iff k xs (scan k xs).1 (scan k xs).2).mp rfl
    generalize (scan k xs).1 = p at hx
    generalize (scan k xs).2 = v at hv hx
    subst hx
    rw [spared_stuff_append k hsm hem]
    cases v with
    | stopped rest =>
      simp only [Verdict.tail] at ih ⊢
      rw [heard_frame false hn, heard_frame true hn, List.cons_eq_cons, spared_zero_cons,
        if_neg k.esc_ne_stop.symm, and_iff_right rfl]
      refine ih _ ?_ rest rfl
      rw [List.length_append, List.length_cons]
      omega
    | badEscape c rest =>
      simp only [Verdict.tail] at ih ⊢
      rw [heard_badEscape false hn p hv.1 hv.2, heard_badEscape true hn p hv.1 hv.2,
        if_pos rfl, if_neg Bool.false_ne_true, spared_zero_cons, if_pos rfl]
      refine heard_broken_iff k hsm hem hn hv.1 hv.2 rest fun ys hys => ih _ ?_ ys rfl
      rw [List.length_append, List.length_cons, List.length_cons]
      omega
    | truncated =>
      simp only [Verdict.tail]
      rw [heard_truncated false hn, heard_truncated true hn]
      exact iff_of_true rfl ((spared_zero_cons k n k.esc []).mpr trivial)
    | exhausted =>
      simp only [Verdict.tail, List.append_nil]
      rw [heard_stuff false hn, heard_stuff true hn]
      exact iff_of_true rfl trivial

end Marks

/-- A receiver holds less than `n` symbols, and has a place for the one it has
seen the first half of. -/
structure Room (n : Nat) (s : Partial α) : Prop where
  acc_lt : s.acc.length + 1 ≤ n
  esc_lt : s.esc = true → s.acc.length + 2 ≤ n

omit [DecidableEq α] in
theorem room_empty {n : Nat} (hn : 2 ≤ n) : Room n (.empty : Partial α) :=
  ⟨Nat.le_of_succ_le hn, fun _ => hn⟩

theorem room_assemble {n : Nat} {s : Partial α} (h : s.acc.length + 2 ≤ n) (c : α) :
    Room n (assemble k s c).1 := by
  have hlen := length_assemble k s c
  refine ⟨by omega, ?_⟩
  intro hesc
  rw [esc_assemble, Bool.and_eq_true] at hesc
  obtain ⟨w, e⟩ := s
  obtain rfl : e = false := by simpa using hesc.1
  rw [of_decide_eq_true hesc.2, assemble_esc]
  exact h

theorem room_receive {n : Nat} (hn : 2 ≤ n) (s : Partial α) (i : Input α) :
    Room n (receive k n s i).1 := by
  cases i with
  | symbol keep c =>
    rw [receive]
    split_ifs with hfull hkeep
    · exact room_assemble k hn c
    · exact room_empty hn
    · exact room_assemble k (Nat.le_of_not_lt hfull) c
  | clear => exact room_empty hn

theorem room_run {n : Nat} (hn : 2 ≤ n) {s : Partial α} (h : Room n s) (is : List (Input α)) :
    Room n (run (receive k n) s is).1 := by
  induction is generalizing s with
  | nil => exact h
  | cons i is ih => exact ih (room_receive k hn s i)

omit [DecidableEq α] in
theorem foldl_put {n : Nat} (w p : List α) (h : w.length + p.length + 1 ≤ n) :
    p.foldl (put n) w = w ++ p := by
  induction p generalizing w with
  | nil => exact (List.append_nil w).symm
  | cons c p ih =>
    rw [List.length_cons] at h
    rw [List.foldl_cons, put, if_pos (by omega), ih _ (by simp; omega), List.append_assoc]
    rfl

theorem run_hear_wire {n : Nat} (hn : 2 ≤ n) (again : Bool) {s : Partial α} (h : Room n s) :
    run (hear k again n) .empty (wire k s) = (s, []) := by
  obtain ⟨w, e⟩ := s
  have hacc := h.acc_lt
  have hw : w.foldl (put n) [] = w := foldl_put [] w (by simpa using hacc)
  rw [wire, run_append, Partial.empty, run_hear_stuff again hn, hw]
  cases e with
  | false => rfl
  | true =>
    rw [if_pos rfl, run_cons, hear_of_room again (h.esc_lt rfl), assemble_esc]
    rfl

theorem heard_wire_append {n : Nat} (hn : 2 ≤ n) (again : Bool) {s : Partial α} (h : Room n s)
    (xs : List α) :
    heard k again n (wire k s ++ xs) = messages (run (hear k again n) s xs).2 := by
  rw [heard, run_append, run_hear_wire k hn again h]
  rfl

end SlipStream.ReceiverResume
