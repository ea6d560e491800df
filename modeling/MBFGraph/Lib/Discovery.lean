import MBFGraph.Lib.Walks

/-!
# Breadth-first discovery with early offers

A breadth-first search in which a vertex of the present level offers itself as a parent to the ends of its edges,
and an offer may be taken in the same superstep or in the next one. `Wave` holds between any two steps of
superstep `k`: whoever has been found has the right distance, and whoever of level `k` has not been found will
get an offer. An offer is a pair of a parent and a child.
-/

namespace Discovery

open Walks

variable {V : Type*} {edges : List (V × V)} {root : V}

/-- A vertex that has been found has its distance, and a parent one level above. -/
def Right (edges : List (V × V)) (root v : V) (o : Option (V × Nat)) : Prop :=
  ∀ p d, o = some (p, d) → Dist edges root v d ∧
    (v ≠ root → (p, v) ∈ edges ∧ ∃ d', d = d' + 1 ∧ Dist edges root p d')

/-- In front of a search. -/
def initial [DecidableEq V] (root v : V) : Option (V × Nat) := if v = root then some (root, 0) else none

/-- Offers of a level have been taken by those who were not found yet. -/
structure Takes (level : Nat) (offers : List (V × V)) (s s' : V → Option (V × Nat)) : Prop where
  each : ∀ v, s' v = s v ∨ s v = none ∧ ∃ p, (p, v) ∈ offers ∧ s' v = some (p, level)
  all : ∀ o ∈ offers, s' o.2 ≠ none

namespace Takes

variable {level : Nat} {offers offers' : List (V × V)} {s s' s'' : V → Option (V × Nat)}

theorem refl (s : V → Option (V × Nat)) : Takes level [] s s where
  each _ := .inl rfl
  all _ none_ := absurd none_ List.not_mem_nil

/-- Who has been found stays as it is. -/
theorem eq_of_found (takes : Takes level offers s s') {v : V} (found : s v ≠ none) : s' v = s v := by
  rcases takes.each v with same | ⟨notYet, _⟩
  · exact same
  · exact absurd notYet found

theorem mono (takes : Takes level offers s s') {v : V} (found : s v ≠ none) : s' v ≠ none := by
  rw [takes.eq_of_found found]
  exact found

theorem trans (first : Takes level offers s s') (second : Takes level offers' s' s'') :
    Takes level (offers ++ offers') s s'' where
  each v := by
    rcases second.each v with same | ⟨notYet, p, offer, now⟩
    · rw [same]
      rcases first.each v with same' | ⟨notYet, p, offer, now⟩
      · exact .inl same'
      · exact .inr ⟨notYet, p, List.mem_append_left _ offer, now⟩
    · rcases first.each v with same' | ⟨_, p', _, now'⟩
      · exact .inr ⟨same' ▸ notYet, p, List.mem_append_right _ offer, now⟩
      · rw [now'] at notYet
        exact absurd notYet (Option.some_ne_none _)
  all o member := by
    rcases List.mem_append.mp member with early | late
    · exact second.mono (first.all o early)
    · exact second.all o late

theorem congr_offers (takes : Takes level offers s s') (same : ∀ o, o ∈ offers ↔ o ∈ offers') :
    Takes level offers' s s' where
  each v := by
    rcases takes.each v with same' | ⟨notYet, p, offer, now⟩
    · exact .inl same'
    · exact .inr ⟨notYet, p, (same _).mp offer, now⟩
  all o member := takes.all o ((same o).mpr member)

end Takes

/-- What holds in superstep `k`. `gathered` are the vertices whose mail has been taken, and `sent` are the edges
along which offers have been made if there are any to make. `mail` are the offers of the superstep before, `out`
those of this superstep that nobody has taken yet. -/
structure Wave (edges : List (V × V)) (root : V) (k : Nat) (gathered : V → Prop) (sent : V × V → Prop)
    (s : V → Option (V × Nat)) (mail out : List (V × V)) : Prop where
  right : ∀ v, Right edges root v (s v)
  above : ∀ v, ∀ d < k, Dist edges root v d → s v ≠ none
  level : ∀ v, Dist edges root v k → s v ≠ none ∨ ¬ gathered v ∧ ∃ p, (p, v) ∈ mail
  mail : ∀ o ∈ mail, o ∈ edges ∧ ∃ d, k = d + 1 ∧ Dist edges root o.1 d
  next : ∀ e ∈ edges, Dist edges root e.1 k → sent e → s e.2 ≠ none ∨ ∃ p, (p, e.2) ∈ out
  out : ∀ o ∈ out, o ∈ edges ∧ Dist edges root o.1 k

namespace Wave

variable {k : Nat} {gathered gathered' : V → Prop} {sent sent' : V × V → Prop}
  {s s' : V → Option (V × Nat)} {mail mail' out out' : List (V × V)}

/-- In front of the first superstep. -/
theorem first [DecidableEq V] (edges : List (V × V)) (root : V) :
    Wave edges root 0 (fun _ => False) (fun _ => False) (initial root) [] [] where
  right v p d found := by
    unfold initial at found
    split at found
    · rename_i isRoot
      obtain ⟨rfl, rfl⟩ := Prod.mk.injEq .. ▸ Option.some.inj found
      exact ⟨isRoot ▸ dist_self, fun other => absurd isRoot other⟩
    · exact absurd found (Option.some_ne_none _).symm
  above _ _ below := absurd below (Nat.not_lt_zero _)
  level v dist := by
    left
    unfold initial
    rw [if_pos dist.eq_of_zero]
    exact Option.some_ne_none _
  mail _ none_ := absurd none_ List.not_mem_nil
  next _ _ _ never := absurd never id
  out _ none_ := absurd none_ List.not_mem_nil

/-- Nobody takes a wrong offer. -/
theorem right_of_takes {level d : Nat} {offers : List (V × V)} (rights : ∀ v, Right edges root v (s v))
    (takes : Takes level offers s s') (isNext : level = d + 1)
    (good : ∀ o ∈ offers, o ∈ edges ∧ Dist edges root o.1 d)
    (above : ∀ o ∈ offers, ∀ d' ≤ d, Dist edges root o.2 d' → s o.2 ≠ none) (v : V) :
    Right edges root v (s' v) := by
  rcases takes.each v with same | ⟨notYet, p, offer, now⟩
  · rw [same]
    exact rights v
  · obtain ⟨edge, dist⟩ := good _ offer
    obtain ⟨d', le, distV⟩ := dist.exists_next edge
    have isLevel : d' = d + 1 := by
      rcases Nat.le_succ_iff.mp le with less | equal
      · exact absurd notYet (above _ offer d' less distV)
      · exact equal
    intro p' d'' found
    rw [now] at found
    obtain ⟨rfl, rfl⟩ := Prod.mk.injEq .. ▸ Option.some.inj found
    exact ⟨isNext ▸ isLevel ▸ distV, fun _ => ⟨edge, d, isNext, dist⟩⟩

/-- Some vertices take their mail. -/
theorem gather (wave : Wave edges root k gathered sent s mail out) {offers : List (V × V)}
    (takes : Takes k offers s s') (fromMail : ∀ o ∈ offers, o ∈ mail)
    (complete : ∀ o ∈ mail, ¬ gathered o.2 → gathered' o.2 → o ∈ offers)
    (rest : ∀ o, o ∈ mail' → o ∈ mail) (rest' : ∀ o ∈ mail, ¬ gathered' o.2 → o ∈ mail') :
    Wave edges root k gathered' sent s' mail' out where
  right v := by
    rcases takes.each v with same | ⟨notYet, p, offer, now⟩
    · rw [same]
      exact wave.right v
    · obtain ⟨_, d, isNext, _⟩ := wave.mail _ (fromMail _ offer)
      refine right_of_takes wave.right takes isNext (fun o member => ?_) (fun o member d' le dist => ?_) v
      · obtain ⟨edge, d', isNext', dist⟩ := wave.mail o (fromMail o member)
        have same : d' = d := by omega
        exact ⟨edge, same ▸ dist⟩
      · exact wave.above _ d' (by omega) dist
  above v d below dist := takes.mono (wave.above v d below dist)
  level v dist := by
    rcases wave.level v dist with found | ⟨notYet, p, member⟩
    · exact .inl (takes.mono found)
    · by_cases now : gathered' v
      · exact .inl (takes.all _ (complete _ member notYet now))
      · exact .inr ⟨now, p, rest' _ member now⟩
  mail o member := wave.mail o (rest o member)
  next e edge dist along := (wave.next e edge dist along).imp takes.mono id
  out := wave.out

/-- Offers are made along an edge, or there is none to make. -/
theorem send (wave : Wave edges root k gathered sent s mail out) {e : V × V} (edge : e ∈ edges)
    (made : Dist edges root e.1 k → e ∈ out') (keeps : ∀ o ∈ out, o ∈ out')
    (fresh : ∀ o ∈ out', o ∈ out ∨ o = e ∧ Dist edges root e.1 k)
    (one : ∀ e', sent' e' → sent e' ∨ e' = e) :
    Wave edges root k gathered sent' s mail out' where
  right := wave.right
  above := wave.above
  level := wave.level
  mail := wave.mail
  next e' edge' dist along := by
    rcases one e' along with before | rfl
    · exact (wave.next e' edge' dist before).imp id fun ⟨p, member⟩ => ⟨p, keeps _ member⟩
    · exact .inr ⟨_, made dist⟩
  out o member := by
    rcases fresh o member with before | ⟨rfl, dist⟩
    · exact wave.out o before
    · exact ⟨edge, dist⟩

/-- Offers of this superstep are taken early, by vertices whose mail has been taken. -/
theorem early (wave : Wave edges root k gathered sent s mail out) {offers : List (V × V)}
    (takes : Takes (k + 1) offers s s') (fromOut : ∀ o ∈ offers, o ∈ out ∧ gathered o.2)
    (rest : ∀ o ∈ out', o ∈ out) (rest' : ∀ o ∈ out, o ∈ offers ∨ o ∈ out') :
    Wave edges root k gathered sent s' mail out' where
  right := by
    refine right_of_takes wave.right takes rfl (fun o member => wave.out o (fromOut o member).1) ?_
    intro o member d le dist
    rcases Nat.lt_or_eq_of_le le with less | rfl
    · exact wave.above _ d less dist
    · exact (wave.level _ dist).resolve_right fun notYet => notYet.1 (fromOut o member).2
  above v d below dist := takes.mono (wave.above v d below dist)
  level v dist := (wave.level v dist).imp takes.mono id
  mail := wave.mail
  next e edge dist along := by
    rcases wave.next e edge dist along with found | ⟨p, member⟩
    · exact .inl (takes.mono found)
    · rcases rest' _ member with taken | kept
      · exact .inl (takes.all (p, e.2) taken)
      · exact .inr ⟨p, kept⟩
  out o member := wave.out o (rest o member)

/-- The superstep is over. -/
theorem succ (wave : Wave edges root k gathered sent s mail out) (allGathered : ∀ v, Dist edges root v k → gathered v)
    (allSent : ∀ e ∈ edges, sent e) :
    Wave edges root (k + 1) (fun _ => False) (fun _ => False) s out [] where
  right := wave.right
  above v d below dist := by
    rcases Nat.lt_succ_iff_lt_or_eq.mp below with less | rfl
    · exact wave.above v d less dist
    · exact (wave.level v dist).resolve_right fun notYet => notYet.1 (allGathered v dist)
  level v dist := by
    obtain ⟨u, distU, edge⟩ := dist.exists_last
    exact (wave.next _ edge distU (allSent _ edge)).imp id fun offered => ⟨id, offered⟩
  mail o member := ⟨(wave.out o member).1, k, rfl, (wave.out o member).2⟩
  next _ _ _ never := absurd never id
  out _ none_ := absurd none_ List.not_mem_nil

/-- The vertices of the present level are those that were found in it. -/
theorem found_iff (wave : Wave edges root k gathered sent s mail out) {v : V} (isGathered : gathered v) :
    (∃ p, s v = some (p, k)) ↔ Dist edges root v k := by
  constructor
  · rintro ⟨p, found⟩
    exact (wave.right v p k found).1
  · intro dist
    have found := (wave.level v dist).resolve_right fun notYet => notYet.1 isGathered
    obtain ⟨⟨p, d⟩, now⟩ := Option.ne_none_iff_exists'.mp found
    have same := (wave.right v p d now).1.unique dist
    exact ⟨p, same ▸ now⟩

/-- If nobody made an offer in the superstep before, everybody has been found. -/
theorem found_of_quiet (wave : Wave edges root (k + 1) gathered sent s mail out)
    (quiet : ∀ e ∈ edges, ¬ Dist edges root e.1 k) {v : V} {d : Nat} (dist : Dist edges root v d) :
    s v ≠ none := by
  by_cases below : d < k + 1
  · exact wave.above v d below dist
  · obtain ⟨w, distW⟩ := dist.exists_of_le (Nat.not_lt.mp below)
    obtain ⟨u, distU, edge⟩ := distW.exists_last
    exact absurd distU (quiet _ edge)

end Wave

end Discovery
