import MBFGraph.UpdateUtility.ExternalSort

/-!
# Merging streams, proved

Every turn of the loops puts out a least front and takes one record (`pushFront_spec`), so a loop ends when one stream
is at its end (`untilEmpty_spec`) or four are left (`heapLoop_spec`), and never looks at the front of a stream that
has none.
-/

namespace MBFGraph

namespace ExternalSort

open KWayMerge

variable {α : Type} {comp : α → α → Bool} {all : List α} {st : Streams α}

/-- The streams of the set have records, and together with the output they hold all records. -/
structure Merges (comp : α → α → Bool) (all : List α) (st : Streams α) : Prop where
  merging : Merging comp all st.mem st.sin st.out
  distinct : st.sin.Nodup
  nonempty : ∀ s ∈ st.sin, st.mem s ≠ []

/-- While there is a stream, a record is missing in the output. -/
theorem Merges.room (merges : Merges comp all st) {s : Nat} (member : s ∈ st.sin) : st.out.length < all.length := by
  have content := merges.merging.content.length_eq
  have some_ : 0 < (st.sin.flatMap st.mem).length := by
    refine List.length_pos_of_ne_nil fun none_ => merges.nonempty s member ?_
    exact List.flatMap_eq_nil_iff.mp none_ s member
  rw [List.length_append] at content
  omega

theorem not_any_isEmpty (merges : Merges comp all st) {l : List Nat} (inside : ∀ s ∈ l, s ∈ st.sin) :
    ¬(l.any fun s => (st.mem s).isEmpty) = true := by
  intro ended
  obtain ⟨s, member, empty⟩ := List.any_eq_true.mp ended
  exact merges.nonempty s (inside s member) (List.isEmpty_iff.mp empty)

/-- The result of a merge. -/
def MergedTo (comp : α → α → Bool) (all : List α) (result : Option (List α)) : Prop :=
  ∃ out, result = some out ∧ Sorted comp out ∧ out.Perm all

theorem copyStream_spec (merges : Merges comp all st) (one : st.sin.length = 1) :
    MergedTo comp all (copyStream st) := by
  obtain ⟨s, sin⟩ := List.length_eq_one_iff.mp one
  have merging := merges.merging
  unfold copyStream
  rw [sin] at merging ⊢
  exact ⟨_, rfl, merging.copy⟩

/-! ## The records of all streams -/

theorem flatMap_getD (files : List (List α)) :
    (List.range files.length).flatMap (fun s => files.getD s []) = files.flatten := by
  rw [List.flatMap_def]
  congr 1
  refine List.ext_getElem (by simp) fun i first second => ?_
  simp [List.getElem?_eq_getElem second]

theorem flatMap_filter_nonempty (mem : Nat → List α) (l : List Nat) :
    (l.filter fun s => !(mem s).isEmpty).flatMap mem = l.flatMap mem := by
  induction l with
  | nil => rfl
  | cons s l ih =>
    rw [List.filter_cons, List.flatMap_cons, ← ih]
    split
    · rw [List.flatMap_cons]
    · rename_i ended
      have empty : mem s = [] := by simpa using ended
      rw [empty, List.nil_append]

/-! ## The choices -/

/-- A choice of a stream with a least front. -/
def Picks (comp : α → α → Bool) (sin : List Nat) (pick : (Nat → α) → Nat) : Prop :=
  ∀ front, pick front ∈ sin ∧ ∀ t ∈ sin, comp (front t) (front (pick front)) = false

theorem picks_min2 (weak : StrictWeak comp) (s1 s2 : Nat) : Picks comp [s1, s2] (min2 comp s1 s2) := by
  intro front
  have irrefl := weak.irrefl
  have asymm := weak.asymm
  unfold min2
  cases h12 : comp (front s1) (front s2) with
  | true => simp [irrefl, asymm _ _ h12]
  | false => simp [irrefl, h12]

theorem picks_min3 (weak : StrictWeak comp) (s1 s2 s3 : Nat) :
    Picks comp [s1, s2, s3] (min3 comp s1 s2 s3) := by
  intro front
  have irrefl := weak.irrefl
  have asymm := weak.asymm
  have trans := fun a b c => weak.negTrans (front a) (front b) (front c)
  unfold min3
  cases h12 : comp (front s1) (front s2) with
  | true =>
    cases h13 : comp (front s1) (front s3) with
    | true => simp [irrefl, asymm _ _ h12, asymm _ _ h13]
    | false => simp [irrefl, h13, trans s2 s1 s3 (asymm _ _ h12) h13]
  | false =>
    cases h23 : comp (front s2) (front s3) with
    | true => simp [irrefl, h12, asymm _ _ h23]
    | false => simp [irrefl, h23, trans s1 s2 s3 h12 h23]

/-- The smaller one of two, as the comparisons at the leaves of `min4` find it. -/
theorem picks_min4 (weak : StrictWeak comp) (s1 s2 s3 s4 : Nat) :
    Picks comp [s1, s2, s3, s4] (min4 comp s1 s2 s3 s4) := by
  intro front
  have final {a a' b b' : Nat} (ha : comp (front a') (front a) = false) (hb : comp (front b') (front b) = false) :
      (if comp (front a) (front b) then a else b) ∈ [a, b] ∧ ∀ t ∈ [a, a', b, b'],
        comp (front t) (front (if comp (front a) (front b) then a else b)) = false := by
    cases hab : comp (front a) (front b) with
    | true =>
      have hba := weak.asymm _ _ hab
      simp [weak.irrefl, ha, hba, weak.negTrans _ _ _ hb hba]
    | false => simp [weak.irrefl, hab, hb, weak.negTrans _ _ _ ha hab]
  unfold min4
  cases h12 : comp (front s1) (front s2) with
  | true =>
    cases h34 : comp (front s3) (front s4) with
    | true =>
      have chosen := final (weak.asymm _ _ h12) (weak.asymm _ _ h34)
      simp only [List.mem_cons, List.not_mem_nil, or_false, forall_eq_or_imp, forall_eq, if_true] at chosen ⊢
      tauto
    | false =>
      have chosen := final (weak.asymm _ _ h12) h34
      simp only [List.mem_cons, List.not_mem_nil, or_false, forall_eq_or_imp, forall_eq, if_true] at chosen ⊢
      simp only [Bool.false_eq_true, if_false]
      tauto
  | false =>
    cases h34 : comp (front s3) (front s4) with
    | true =>
      have chosen := final h12 (weak.asymm _ _ h34)
      simp only [List.mem_cons, List.not_mem_nil, or_false, forall_eq_or_imp, forall_eq, if_true] at chosen ⊢
      simp only [Bool.false_eq_true, if_false]
      tauto
    | false =>
      have chosen := final h12 h34
      simp only [List.mem_cons, List.not_mem_nil, or_false, forall_eq_or_imp, forall_eq] at chosen ⊢
      simp only [Bool.false_eq_true, if_false]
      tauto

/-! ## The loops -/

variable [Inhabited α]

theorem front_eq {mem : Nat → List α} {s : Nat} {x : α} (first : (mem s).head? = some x) : front mem s = x := by
  unfold front
  rw [List.headD_eq_head?_getD, first]
  rfl

theorem pushFront_sin (st : Streams α) (smin : Nat) : (pushFront st smin).sin =
    if ((pushFront st smin).mem smin).isEmpty then st.sin.erase smin else st.sin := rfl

theorem pushFront_mem_of_ne (st : Streams α) {smin s : Nat} (other : s ≠ smin) :
    (pushFront st smin).mem s = st.mem s := Function.update_of_ne other _ _

/-- A least front is put out. -/
theorem pushFront_spec (weak : StrictWeak comp) (merges : Merges comp all st) {smin : Nat} (member : smin ∈ st.sin)
    (least : ∀ t ∈ st.sin, comp (front st.mem t) (front st.mem smin) = false) :
    Merges comp all (pushFront st smin) ∧ (pushFront st smin).out.length = st.out.length + 1 := by
  obtain ⟨x, rest, stream⟩ := List.exists_cons_of_ne_nil (merges.nonempty smin member)
  have isFront : front st.mem smin = x := front_eq (by rw [stream]; rfl)
  have taken := merges.merging.take weak merges.distinct member stream (fun t isStream y first => by
    rw [← isFront, ← front_eq first]
    exact least t isStream)
  have after : (st.mem smin).tail = rest := by rw [stream, List.tail_cons]
  have others : ∀ s ∈ st.sin, s ≠ smin → Function.update st.mem smin rest s ≠ [] := by
    intro s isStream other
    rw [Function.update_of_ne other]
    exact merges.nonempty s isStream
  unfold pushFront
  simp only [after, isFront, Function.update_self]
  refine ⟨?_, List.length_append⟩
  cases rest with
  | nil =>
    refine ⟨taken.erase (Function.update_self _ _ _), merges.distinct.erase smin, fun s isStream => ?_⟩
    have inside := (merges.distinct.mem_erase_iff).mp isStream
    exact others s inside.2 inside.1
  | cons y rest =>
    refine ⟨taken, merges.distinct, fun s isStream => ?_⟩
    by_cases same : s = smin
    · subst same
      show Function.update st.mem s (y :: rest) s ≠ []
      rw [Function.update_self]
      exact List.cons_ne_nil y rest
    · exact others s isStream same

/-- The loop ends when a stream is at its end. -/
theorem untilEmpty_spec (weak : StrictWeak comp) {pick : (Nat → α) → Nat} {fuel : Nat} (picks : Picks comp st.sin pick)
    (merges : Merges comp all st) (enough : all.length ≤ fuel + st.out.length) :
    ∃ st', untilEmpty pick fuel st = some st' ∧ Merges comp all st' ∧ st'.sin.length + 1 = st.sin.length ∧
      st.out.length ≤ st'.out.length := by
  induction fuel generalizing st with
  | zero =>
    have room := merges.room (picks (front st.mem)).1
    omega
  | succ fuel ih =>
    obtain ⟨member, least⟩ := picks (front st.mem)
    obtain ⟨pushed, longer⟩ := pushFront_spec weak merges member least
    have sin := pushFront_sin st (pick (front st.mem))
    unfold untilEmpty
    rw [if_neg (not_any_isEmpty merges fun s isStream => isStream)]
    by_cases empty : ((pushFront st (pick (front st.mem))).mem (pick (front st.mem))).isEmpty = true
    · rw [if_pos empty] at sin
      refine ⟨_, if_pos empty, pushed, ?_, by omega⟩
      rw [sin, List.length_erase_of_mem member]
      have some_ := List.length_pos_of_mem member
      omega
    · rw [if_neg empty] at sin
      have picks' : Picks comp (pushFront st (pick (front st.mem))).sin pick := by
        rw [sin]
        exact picks
      obtain ⟨st', result, merges', shorter, grown⟩ := ih picks' pushed (by omega)
      refine ⟨st', (if_neg empty).trans result, merges', ?_, by omega⟩
      rw [shorter, sin]

/-- A loop, and the merge of the streams that are left. -/
theorem bind_untilEmpty (weak : StrictWeak comp) {pick : (Nat → α) → Nat} {fuel : Nat}
    (picks : Picks comp st.sin pick) (merges : Merges comp all st) (enough : all.length ≤ fuel + st.out.length)
    {next : Streams α → Option (List α)}
    (rest : ∀ st', Merges comp all st' → st'.sin.length + 1 = st.sin.length → all.length ≤ fuel + st'.out.length →
      MergedTo comp all (next st')) :
    MergedTo comp all ((untilEmpty pick fuel st).bind next) := by
  obtain ⟨st', result, merges', shorter, grown⟩ := untilEmpty_spec weak picks merges enough
  rw [result]
  exact rest st' merges' shorter (by omega)

theorem merge2streams_spec (weak : StrictWeak comp) {fuel : Nat} (merges : Merges comp all st)
    (two : st.sin.length = 2) (enough : all.length ≤ fuel + st.out.length) :
    MergedTo comp all (merge2streams comp fuel st) := by
  obtain ⟨s1, s2, sin⟩ := List.length_eq_two.mp two
  simp only [merge2streams, sin]
  refine bind_untilEmpty weak (by rw [sin]; exact picks_min2 weak s1 s2) merges enough fun st' merges' fewer _ => ?_
  exact copyStream_spec merges' (by omega)

theorem merge3streams_spec (weak : StrictWeak comp) {fuel : Nat} (merges : Merges comp all st)
    (three : st.sin.length = 3) (enough : all.length ≤ fuel + st.out.length) :
    MergedTo comp all (merge3streams comp fuel st) := by
  obtain ⟨s1, s2, s3, sin⟩ := List.length_eq_three.mp three
  simp only [merge3streams, sin]
  refine bind_untilEmpty weak (by rw [sin]; exact picks_min3 weak s1 s2 s3) merges enough ?_
  intro st' merges' fewer enough'
  exact merge2streams_spec weak merges' (by omega) enough'

theorem merge4streams_spec (weak : StrictWeak comp) {fuel : Nat} (merges : Merges comp all st)
    (four : st.sin.length = 4) (enough : all.length ≤ fuel + st.out.length) :
    MergedTo comp all (merge4streams comp fuel st) := by
  match sin : st.sin, four with
  | [s1, s2, s3, s4], _ =>
    simp only [merge4streams, sin]
    refine bind_untilEmpty weak (by rw [sin]; exact picks_min4 weak s1 s2 s3 s4) merges enough ?_
    intro st' merges' fewer enough'
    rw [sin] at fewer
    exact merge3streams_spec weak merges' (Nat.succ.inj fewer) enough'

/-! ## Many streams -/

theorem hcomp_weak (weak : StrictWeak comp) (mem : Nat → List α) : StrictWeak (hcomp comp mem) where
  asymm a b := weak.asymm (front mem b) (front mem a)
  negTrans a b c first second := weak.negTrans (front mem c) (front mem b) (front mem a) second first

theorem front_pushFront_of_ne (st : Streams α) {smin s : Nat} (other : s ≠ smin) :
    front (pushFront st smin).mem s = front st.mem s := by
  unfold front
  rw [pushFront_mem_of_ne st other]

/-- The loop ends when four streams are left: the heap holds the streams of the set. -/
theorem heapLoop_spec (weak : StrictWeak comp) (heaps : StdHeap Nat) {fuel : Nat} {heap : List Nat}
    (merges : Merges comp all st) (same : heap.Perm st.sin) (isHeap : IsHeap (hcomp comp st.mem) heap)
    (many : 4 ≤ heap.length) (enough : all.length < fuel + st.out.length) :
    ∃ st', heapLoop comp heaps fuel heap st = some st' ∧ Merges comp all st' ∧ st'.sin.length = 4 ∧
      st.out.length ≤ st'.out.length := by
  induction fuel generalizing heap st with
  | zero =>
    have content := merges.merging.content.length_eq
    rw [List.length_append] at content
    omega
  | succ fuel ih =>
    unfold heapLoop
    by_cases more : 4 < heap.length
    · obtain ⟨smin, tail, rfl⟩ := List.exists_cons_of_length_pos (Nat.lt_trans (by decide) more)
      have member : smin ∈ st.sin := same.subset List.mem_cons_self
      have least : ∀ t ∈ st.sin, comp (front st.mem t) (front st.mem smin) = false := fun t isStream =>
        isHeap.front (hcomp_weak weak st.mem) (same.symm.subset isStream)
      obtain ⟨pushed, longer⟩ := pushFront_spec weak merges member least
      obtain ⟨rest, popped, isRest, restHeap⟩ := heaps.popHeap_spec _ smin tail (hcomp_weak weak st.mem) isHeap
      have distinct : (smin :: tail).Nodup := same.nodup_iff.mpr merges.distinct
      have fresh : smin ∉ rest := fun inside => (List.nodup_cons.mp distinct).1 (isRest.subset inside)
      -- the other fronts are as before
      have restHeap' : IsHeap (hcomp comp (pushFront st smin).mem) rest := by
        refine restHeap.congr fun a isA b isB => ?_
        have otherA : a ≠ smin := fun eq => fresh (eq ▸ isA)
        have otherB : b ≠ smin := fun eq => fresh (eq ▸ isB)
        unfold hcomp
        rw [front_pushFront_of_ne st otherA, front_pushFront_of_ne st otherB]
      have sin := pushFront_sin st smin
      have counted := isRest.length_eq
      rw [if_pos more, if_neg (not_any_isEmpty merges fun s inside => same.subset inside)]
      simp only [List.headD_cons, popped, List.dropLast_concat]
      rw [List.length_cons] at more
      by_cases empty : ((pushFront st smin).mem smin).isEmpty = true
      · rw [if_pos empty] at sin ⊢
        have same' : rest.Perm (pushFront st smin).sin := by
          rw [sin]
          exact isRest.trans (List.cons_perm_iff_perm_erase.mp same).2
        obtain ⟨st', result, merges', four, grown⟩ := ih pushed same' restHeap' (by omega) (by omega)
        exact ⟨st', result, merges', four, by omega⟩
      · rw [if_neg empty] at sin ⊢
        obtain ⟨isPushed, pushedHeap⟩ :=
          heaps.pushHeap_spec _ rest smin (hcomp_weak weak (pushFront st smin).mem) restHeap'
        have same' : (heaps.pushHeap (hcomp comp (pushFront st smin).mem) (rest ++ [smin])).Perm
            (pushFront st smin).sin := by
          rw [sin]
          exact (isPushed.trans (List.perm_append_singleton smin rest)).trans ((isRest.cons smin).trans same)
        have size := isPushed.length_eq
        rw [List.length_append, List.length_singleton] at size
        obtain ⟨st', result, merges', four, grown⟩ := ih pushed same' pushedHeap (by omega) (by omega)
        exact ⟨st', result, merges', four, by omega⟩
    · rw [if_neg more]
      exact ⟨st, rfl, merges, by rw [← same.length_eq]; omega, le_rfl⟩

theorem mergeNstreams_spec (weak : StrictWeak comp) (heaps : StdHeap Nat) {fuel : Nat} (merges : Merges comp all st)
    (many : 4 < st.sin.length) (enough : all.length < fuel + st.out.length) :
    MergedTo comp all (mergeNstreams comp heaps fuel st) := by
  have filled : (st.sin.filter fun s => !(st.mem s).isEmpty) = st.sin := by
    refine List.filter_eq_self.mpr fun s member => ?_
    rw [Bool.not_eq_true', List.isEmpty_eq_false_iff]
    exact merges.nonempty s member
  obtain ⟨same, isHeap⟩ := heaps.makeHeap_spec _ st.sin (hcomp_weak weak st.mem)
  obtain ⟨st', result, merges', four, grown⟩ :=
    heapLoop_spec weak heaps merges same isHeap (by rw [same.length_eq]; omega) enough
  unfold mergeNstreams
  rw [if_neg (by omega)]
  simp only [filled, result, Option.bind_some]
  exact merge4streams_spec weak merges' four (by omega)

/-! ## All streams -/

/-- Some stream has a record, and then the output is sorted and has all records; or `sout` is given up. -/
theorem mergeStreams_spec (weak : StrictWeak comp) (heaps : StdHeap Nat) (set : SetOrder) {files : List (List α)}
    (runs : ∀ file ∈ files, Sorted comp file) :
    ∃ result, mergeStreams comp heaps set files = some result ∧ Sorted comp (result.getD []) ∧
      (result.getD []).Perm files.flatten ∧ (result = none ↔ files.flatten = []) := by
  have inserted := set.perm ((List.range files.length).filter fun s => !(files.getD s []).isEmpty)
  have content : ((set.order ((List.range files.length).filter fun s => !(files.getD s []).isEmpty)).flatMap
      fun s => files.getD s []).Perm files.flatten := by
    refine (inserted.flatMap_right _).trans ?_
    rw [flatMap_filter_nonempty (fun s => files.getD s []), flatMap_getD]
  have merges : Merges comp files.flatten
      ⟨set.order ((List.range files.length).filter fun s => !(files.getD s []).isEmpty), fun s => files.getD s [], []⟩ := by
    refine ⟨Merging.start (fun s _ => ?_) content, ?_, fun s member => ?_⟩
    · show Sorted comp (files.getD s [])
      rcases Nat.lt_or_ge s files.length with inside | outside
      · rw [List.getD_eq_getElem _ _ inside]
        exact runs _ (List.getElem_mem inside)
      · rw [List.getD_eq_default _ _ outside]
        exact List.Pairwise.nil
    · exact inserted.nodup_iff.mpr (List.nodup_range.filter _)
    · have has := (List.mem_filter.mp (inserted.subset member)).2
      simpa using has
  simp only [mergeStreams]
  generalize set.order ((List.range files.length).filter fun s => !(files.getD s []).isEmpty) = sinp at content merges ⊢
  have finish {r : Option (List α)} (merged : MergedTo comp files.flatten r) (some_ : 0 < sinp.length) :
      ∃ result, r.map some = some result ∧ Sorted comp (result.getD []) ∧ (result.getD []).Perm files.flatten ∧
        (result = none ↔ files.flatten = []) := by
    obtain ⟨out, rfl, sorted, perm⟩ := merged
    obtain ⟨s, rest, sin⟩ := List.exists_cons_of_length_pos some_
    have room := merges.room (s := s) (by rw [sin]; exact List.mem_cons_self)
    refine ⟨some out, rfl, sorted, perm, fun none_ => absurd none_ (Option.some_ne_none out), fun empty => ?_⟩
    rw [empty] at room
    exact absurd room (Nat.not_lt_zero _)
  by_cases some_ : 0 < sinp.length
  · simp only [if_pos some_]
    refine finish ?_ some_
    split
    · rename_i many
      exact mergeNstreams_spec weak heaps merges many (by simp)
    · split
      · rename_i four
        exact merge4streams_spec weak merges four (by simp)
      · split
        · rename_i three
          exact merge3streams_spec weak merges three (by simp)
        · split
          · rename_i two
            exact merge2streams_spec weak merges two (by simp)
          · exact copyStream_spec merges (by show sinp.length = 1; omega)
  · simp only [if_neg some_]
    have none_ : sinp = [] := List.length_eq_zero_iff.mp (Nat.eq_zero_of_not_pos some_)
    rw [none_] at content
    have empty : files.flatten = [] := content.nil_eq.symm
    refine ⟨none, rfl, List.Pairwise.nil, ?_, fun _ => empty, fun _ => rfl⟩
    rw [empty]
    exact List.Perm.refl []

end ExternalSort

end MBFGraph
