import Mathlib.Data.List.Induction
import Mathlib.Data.List.Pairwise

/-!
# Lists of tagged values

A list of values, each under a tag, in which a tag is compared by a relation
`same` that need not be reflexive: a tag that does not match itself is never
found again. A lookup tries the last node before it scans from the front, and
an update replaces the value of the node found and keeps its tag.
-/

namespace KeyedList

set_option autoImplicit false

universe u v
variable {κ : Type u} {ν : Type v} (same : κ → κ → Bool)

def locate (k : κ) (l : List (κ × ν)) : Option (κ × ν) :=
  match l.getLast? with
  | none => none
  | some n => if same n.1 k then some n else l.find? (same ·.1 k)

def get (k : κ) (l : List (κ × ν)) : Option ν := (locate same k l).map Prod.snd

def replaceFirst (k : κ) (v : ν) : List (κ × ν) → List (κ × ν)
  | [] => []
  | n :: l => if same n.1 k then (n.1, v) :: l else n :: replaceFirst k v l

def upsert (k : κ) (v : ν) (l : List (κ × ν)) : List (κ × ν) :=
  match l.getLast? with
  | none => [(k, v)]
  | some n =>
    if same n.1 k then l.dropLast ++ [(n.1, v)]
    else if l.any (same ·.1 k) then replaceFirst same k v l
    else l ++ [(k, v)]

def ofPairs (ps : List (κ × ν)) : List (κ × ν) :=
  ps.foldl (fun l p => upsert same p.1 p.2 l) []

def Distinct (l : List (κ × ν)) : Prop := l.Pairwise (fun a b => same a.1 b.1 = false)

structure Matching : Prop where
  symm : ∀ a b, same a b = true → same b a = true
  trans : ∀ a b c, same a b = true → same b c = true → same a c = true

variable {same}

theorem Matching.comm (h : Matching same) (a b : κ) : same a b = same b a := by
  rw [Bool.eq_iff_iff]
  exact ⟨h.symm a b, h.symm b a⟩

theorem replaceFirst_split {k : κ} (v : ν) {l : List (κ × ν)} (h : l.any (same ·.1 k) = true) :
    ∃ a n b, l = a ++ n :: b ∧ same n.1 k = true ∧ replaceFirst same k v l =
      a ++ (n.1, v) :: b := by
  induction l with
  | nil => simp at h
  | cons m l ih =>
    by_cases hm : same m.1 k = true
    · exact ⟨[], m, l, rfl, hm, by simp [replaceFirst, hm]⟩
    · have hl : l.any (same ·.1 k) = true := by simpa [hm] using h
      obtain ⟨a, n, b, h1, h2, h3⟩ := ih hl
      exact ⟨m :: a, n, b, by rw [h1]; rfl, h2, by simp [replaceFirst, hm, h3]⟩

/-- What an update can do: append a node, or give a matching node a new value. -/
theorem upsert_cases (k : κ) (v : ν) (l : List (κ × ν)) :
    ((∀ n ∈ l, same n.1 k = false) ∧ upsert same k v l = l ++ [(k, v)]) ∨
      ∃ a n b, l = a ++ n :: b ∧ same n.1 k = true ∧ upsert same k v l = a ++ (n.1, v) :: b := by
  rcases List.eq_nil_or_concat l with rfl | ⟨init, last, rfl⟩
  · exact Or.inl ⟨by simp, rfl⟩
  · by_cases hlast : same last.1 k = true
    · exact Or.inr ⟨init, last, [], by simp, hlast, by simp [upsert, hlast]⟩
    · by_cases hany : (init ++ [last]).any (same ·.1 k) = true
      · obtain ⟨a, n, b, h1, h2, h3⟩ := replaceFirst_split v hany
        refine Or.inr ⟨a, n, b, ?_, h2, ?_⟩
        · rw [← h1, List.concat_eq_append]
        · rw [← h3]
          simp only [upsert, List.concat_eq_append, List.getLast?_append, List.getLast?_singleton,
            Option.some_or, hlast, Bool.false_eq_true, if_false, hany, if_true]
      · refine Or.inl ⟨?_, ?_⟩
        · intro n hn
          rw [List.any_eq_true] at hany
          by_contra hne
          exact hany ⟨n, by simpa using hn, by simpa using hne⟩
        · simp only [upsert, List.concat_eq_append, List.getLast?_append, List.getLast?_singleton,
            Option.some_or, hlast, Bool.false_eq_true, if_false, hany]

theorem locate_mem {k : κ} {l : List (κ × ν)} {n : κ × ν} (h : locate same k l = some n) :
    n ∈ l ∧ same n.1 k = true := by
  unfold locate at h
  split at h
  · cases h
  · rename_i m hm
    split at h
    · rename_i hs
      cases h
      exact ⟨List.mem_of_getLast? hm, hs⟩
    · exact ⟨List.mem_of_find?_eq_some h, by simpa using List.find?_some h⟩

theorem locate_isSome {k : κ} {l : List (κ × ν)} {n : κ × ν} (hn : n ∈ l)
    (hs : same n.1 k = true) : ∃ m, locate same k l = some m := by
  have hne : l ≠ [] := List.ne_nil_of_mem hn
  obtain ⟨m, hm⟩ : ∃ m, l.getLast? = some m := ⟨_, List.getLast?_eq_some_getLast hne⟩
  unfold locate
  rw [hm]
  by_cases h : same m.1 k = true
  · exact ⟨m, by simp [h]⟩
  · have hf : (l.find? (same ·.1 k)).isSome := List.find?_isSome.mpr ⟨n, hn, hs⟩
    obtain ⟨m', hm'⟩ := Option.isSome_iff_exists.mp hf
    exact ⟨m', by simp [h, hm']⟩

theorem matching_middle (a b : List (κ × ν)) {n : κ × ν} {j : κ} (hn : same n.1 j = false) (w : ν) :
    (∃ m ∈ a ++ n :: b, m.2 = w ∧ same m.1 j = true) ↔
      ∃ m ∈ a ++ b, m.2 = w ∧ same m.1 j = true := by
  constructor
  · rintro ⟨m, hm, hw, hj⟩
    rw [List.mem_append, List.mem_cons] at hm
    rcases hm with hm | rfl | hm
    · exact ⟨m, List.mem_append_left _ hm, hw, hj⟩
    · rw [hn] at hj
      cases hj
    · exact ⟨m, List.mem_append_right _ hm, hw, hj⟩
  · rintro ⟨m, hm, hw, hj⟩
    refine ⟨m, ?_, hw, hj⟩
    rcases List.mem_append.mp hm with hm | hm
    · exact List.mem_append_left _ hm
    · exact List.mem_append_right _ (List.mem_cons_of_mem _ hm)

/-- Nodes picked out by a predicate that only holds under matching tags: there is at most one. -/
theorem filter_unique {l : List (κ × ν)} (hd : Distinct same l) {p : κ × ν → Bool}
    (hp : ∀ m ∈ l, ∀ n ∈ l, p m = true → p n = true → same m.1 n.1 = true) {x : κ × ν}
    (hx : x ∈ l) (hpx : p x = true) : l.filter p = [x] := by
  induction l with
  | nil => cases hx
  | cons a l ih =>
    obtain ⟨ha, hd⟩ := List.pairwise_cons.mp hd
    by_cases hpa : p a = true
    · have hnone : ∀ b ∈ l, ¬ p b = true := by
        intro b hb hpb
        have hmatch := hp a (by simp) b (by simp [hb]) hpa hpb
        rw [ha b hb] at hmatch
        cases hmatch
      rcases List.mem_cons.mp hx with rfl | hx
      · rw [List.filter_cons_of_pos hpa, List.filter_eq_nil_iff.mpr hnone]
      · exact absurd hpx (hnone x hx)
    · rw [List.filter_cons_of_neg hpa]
      rcases List.mem_cons.mp hx with rfl | hx
      · exact absurd hpx hpa
      · exact ih hd (fun m hm n hn => hp m (by simp [hm]) n (by simp [hn])) hx

section Laws

variable (hsame : Matching same)
include hsame

theorem Distinct.unique {l : List (κ × ν)} (hd : Distinct same l) {k : κ} {m n : κ × ν}
    (hm : m ∈ l) (hn : n ∈ l) (hmk : same m.1 k = true) (hnk : same n.1 k = true) : m = n := by
  have hmn : same m.1 n.1 = true := hsame.trans _ _ _ hmk (hsame.symm _ _ hnk)
  by_contra hne
  have hsymm : Std.Symm fun a b : κ × ν => same a.1 b.1 = false := by
    refine ⟨fun a b hab => ?_⟩
    rw [← hab]
    exact hsame.comm _ _
  have hfalse := List.Pairwise.forall hd hm hn hne
  rw [hmn] at hfalse
  cases hfalse

theorem get_eq_some_iff {l : List (κ × ν)} (hd : Distinct same l) (k : κ) (v : ν) :
    get same k l = some v ↔ ∃ n ∈ l, n.2 = v ∧ same n.1 k = true := by
  constructor
  · intro h
    obtain ⟨n, hn, rfl⟩ := Option.map_eq_some_iff.mp h
    obtain ⟨hmem, hs⟩ := locate_mem hn
    exact ⟨n, hmem, rfl, hs⟩
  · rintro ⟨n, hn, rfl, hs⟩
    obtain ⟨m, hm⟩ := locate_isSome hn hs
    obtain ⟨hmem, hms⟩ := locate_mem hm
    have hmn := hd.unique hsame hmem hn hms hs
    rw [get, hm, hmn]
    rfl

omit hsame in
theorem Distinct.upsert {l : List (κ × ν)} (hd : Distinct same l) (k : κ) (v : ν) :
    Distinct same (upsert same k v l) := by
  unfold Distinct at *
  rcases upsert_cases k v l with ⟨hno, heq⟩ | ⟨a, n, b, rfl, hs, heq⟩
  · rw [heq, List.pairwise_append]
    exact ⟨hd, by simp, by simpa using hno⟩
  · rw [heq]
    rw [List.pairwise_append, List.pairwise_cons] at hd ⊢
    obtain ⟨ha, ⟨hb, hb'⟩, hab⟩ := hd
    refine ⟨ha, ⟨hb, hb'⟩, ?_⟩
    intro x hx y hy
    rcases List.mem_cons.mp hy with rfl | hy
    · exact hab x hx n (by simp)
    · exact hab x hx y (by simp [hy])

theorem get_upsert_other {l : List (κ × ν)} (hd : Distinct same l) {k j : κ}
    (hj : same k j = false) (v : ν) : get same j (upsert same k v l) = get same j l := by
  refine Option.ext fun w => ?_
  rw [get_eq_some_iff hsame (hd.upsert k v), get_eq_some_iff hsame hd]
  rcases upsert_cases k v l with ⟨_, heq⟩ | ⟨a, n, b, rfl, hs, heq⟩
  · rw [heq]
    simp [hj]
  · have hnj : same n.1 j = false := by
      rw [← hj, Bool.eq_iff_iff]
      exact ⟨fun h => hsame.trans _ _ _ (hsame.symm _ _ hs) h, fun h => hsame.trans _ _ _ hs h⟩
    have hnv : same (n.1, v).1 j = false := hnj
    rw [heq, matching_middle a b hnj, matching_middle a b hnv]

theorem get_upsert {l : List (κ × ν)} (hd : Distinct same l) (k : κ) (v : ν) (j : κ) :
    get same j (upsert same k v l) = if same k j then some v else get same j l := by
  have hd' := hd.upsert k v
  by_cases hj : same k j = true
  · rw [if_pos hj, get_eq_some_iff hsame hd']
    rcases upsert_cases k v l with ⟨_, heq⟩ | ⟨a, n, b, _, hs, heq⟩
    · exact ⟨(k, v), by rw [heq]; simp, rfl, hj⟩
    · exact ⟨(n.1, v), by rw [heq]; simp, rfl, hsame.trans _ _ _ hs hj⟩
  · rw [if_neg hj]
    exact get_upsert_other hsame hd (by simpa using hj) v

theorem mem_upsert {l : List (κ × ν)} (hd : Distinct same l) {k : κ} {v : ν} {n : κ × ν}
    (hn : n ∈ upsert same k v l) :
    (n.2 = v ∧ (n.1 = k ∨ same n.1 k = true)) ∨ (n ∈ l ∧ same n.1 k = false) := by
  rcases upsert_cases k v l with ⟨hno, heq⟩ | ⟨a, m, b, rfl, hs, heq⟩
  · rw [heq, List.mem_append, List.mem_singleton] at hn
    rcases hn with hn | rfl
    · exact Or.inr ⟨hn, hno n hn⟩
    · exact Or.inl ⟨rfl, Or.inl rfl⟩
  · have other {x : κ × ν} (hx : x ∈ a ++ m :: b) (hne : x ≠ m) : same x.1 k = false := by
      by_contra h
      rw [Bool.not_eq_false] at h
      exact hne (hd.unique hsame hx (by simp) h hs)
    have hnodup : ∀ x ∈ a ++ b, x ≠ m := by
      rintro x hx rfl
      unfold Distinct at hd
      rw [List.pairwise_append, List.pairwise_cons] at hd
      have hself : same x.1 x.1 = true := hsame.trans _ _ _ hs (hsame.symm _ _ hs)
      rcases List.mem_append.mp hx with hx | hx
      · have := hd.2.2 x hx x (by simp)
        rw [hself] at this
        cases this
      · have := hd.2.1.1 x hx
        rw [hself] at this
        cases this
    rw [heq, List.mem_append, List.mem_cons] at hn
    rcases hn with hn | rfl | hn
    · exact Or.inr ⟨by simp [hn], other (by simp [hn]) (hnodup n (by simp [hn]))⟩
    · exact Or.inl ⟨rfl, Or.inr hs⟩
    · exact Or.inr ⟨by simp [hn], other (by simp [hn]) (hnodup n (by simp [hn]))⟩

omit hsame in
theorem upsert_mem_new (k : κ) (v : ν) (l : List (κ × ν)) :
    ∃ n ∈ upsert same k v l, n.2 = v ∧ (n.1 = k ∨ same n.1 k = true) := by
  rcases upsert_cases k v l with ⟨_, heq⟩ | ⟨a, m, b, _, hs, heq⟩
  · exact ⟨(k, v), by rw [heq]; simp, rfl, Or.inl rfl⟩
  · exact ⟨(m.1, v), by rw [heq]; simp, rfl, Or.inr hs⟩

omit hsame in
theorem upsert_mem_old {k : κ} (v : ν) {l : List (κ × ν)} {n : κ × ν} (hn : n ∈ l)
    (hk : same n.1 k = false) : n ∈ upsert same k v l := by
  rcases upsert_cases k v l with ⟨_, heq⟩ | ⟨a, m, b, rfl, hs, heq⟩
  · rw [heq]
    exact List.mem_append_left _ hn
  · rw [heq]
    rw [List.mem_append, List.mem_cons] at hn ⊢
    rcases hn with hn | rfl | hn
    · exact Or.inl hn
    · rw [hs] at hk
      cases hk
    · exact Or.inr (Or.inr hn)

omit hsame in
theorem ofPairs_append (ps : List (κ × ν)) (p : κ × ν) :
    ofPairs same (ps ++ [p]) = upsert same p.1 p.2 (ofPairs same ps) := by
  simp [ofPairs, List.foldl_append]

omit hsame in
theorem distinct_ofPairs (ps : List (κ × ν)) : Distinct same (ofPairs same ps) := by
  induction ps using List.reverseRecOn with
  | nil => exact List.Pairwise.nil
  | append_singleton ps p ih =>
    rw [ofPairs_append]
    exact ih.upsert p.1 p.2

/-- A lookup in a list built by updates finds the last value stored under the tag. -/
theorem get_ofPairs (ps : List (κ × ν)) (j : κ) :
    get same j (ofPairs same ps) = (ps.reverse.find? (same ·.1 j)).map Prod.snd := by
  induction ps using List.reverseRecOn with
  | nil => rfl
  | append_singleton ps p ih =>
    have hd : Distinct same (ofPairs same ps) := distinct_ofPairs ps
    rw [ofPairs_append, List.reverse_append, List.reverse_singleton, List.singleton_append,
      List.find?_cons]
    by_cases hj : same p.1 j = true
    · rw [get_upsert hsame hd, if_pos hj, hj]
      rfl
    · rw [Bool.not_eq_true] at hj
      rw [get_upsert_other hsame hd hj, ih, hj]

omit hsame in
theorem mem_ofPairs {ps : List (κ × ν)} {n : κ × ν} (hn : n ∈ ofPairs same ps) :
    ∃ p ∈ ps, p.2 = n.2 ∧ (p.1 = n.1 ∨ same n.1 p.1 = true) := by
  induction ps using List.reverseRecOn generalizing n with
  | nil => cases hn
  | append_singleton ps p ih =>
    rw [ofPairs_append] at hn
    have old {m : κ × ν} (hm : m ∈ ofPairs same ps) :
        ∃ q ∈ ps ++ [p], q.2 = m.2 ∧ (q.1 = m.1 ∨ same m.1 q.1 = true) := by
      obtain ⟨q, hq, h⟩ := ih hm
      exact ⟨q, by simp [hq], h⟩
    rcases upsert_cases p.1 p.2 (ofPairs same ps) with ⟨_, heq⟩ | ⟨a, m, b, hl, hs, heq⟩
    · rw [heq, List.mem_append, List.mem_singleton] at hn
      rcases hn with hn | rfl
      · exact old hn
      · exact ⟨p, by simp, rfl, Or.inl rfl⟩
    · rw [heq, List.mem_append, List.mem_cons] at hn
      rcases hn with hn | rfl | hn
      · exact old (by simp [hl, hn])
      · exact ⟨p, by simp, rfl, Or.inr hs⟩
      · exact old (by simp [hl, hn])

theorem last_mem_ofPairs {ps : List (κ × ν)} {p : κ × ν}
    (hlast : ps.reverse.find? (same ·.1 p.1) = some p) :
    ∃ n ∈ ofPairs same ps, n.2 = p.2 ∧ same n.1 p.1 = true := by
  have hget := get_ofPairs hsame ps p.1
  rw [hlast] at hget
  exact (get_eq_some_iff hsame (distinct_ofPairs ps) p.1 p.2).mp hget

end Laws

end KeyedList
