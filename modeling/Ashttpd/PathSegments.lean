import Ashttpd.UriPasses
import Mathlib.Data.List.Destutter

/-!
# The path that `n_path` leaves

The segments of a path are what stands behind its slashes once backslashes are read as slashes
and runs of slashes are one. `n_path` keeps pointers to them while it cuts the buffer up, and
copies them back over it; here it is shown to compute the stack of segments that dot segments
leave.
-/
namespace Ashttpd

def NotBothSlash (a b : UInt8) : Prop := ¬ (a = SLASH ∧ b = SLASH)

instance : DecidableRel NotBothSlash := fun a b => inferInstanceAs (Decidable (¬ (a = SLASH ∧ b = SLASH)))

def collapse (path : Bytes) : Bytes := (path.map toSlash).destutter NotBothSlash

def segments (path : Bytes) : List Bytes := ((collapse path).splitOn SLASH).tail

/-- The stack that dot segments leave, unless one of them finds it empty. -/
def resolve : List Bytes → List Bytes → Option (List Bytes)
  | stack, [] => some stack
  | stack, s :: ss =>
    if s = [DOT] then resolve stack ss
    else if s = [DOT, DOT] then if stack = [] then none else resolve stack.dropLast ss
    else resolve (stack ++ [s]) ss

def pathText (ss : List Bytes) : Bytes := SLASH :: [SLASH].intercalate ss

/-- A path that names one file in one way. -/
structure Canonical (u : Bytes) : Prop where
  rooted : ∃ rest, u = SLASH :: rest
  noBackslash : BACKSLASH ∉ u
  noDots : ∀ s ∈ (u.splitOn SLASH).tail, s ≠ [DOT] ∧ s ≠ [DOT, DOT]
  noEmpty : [] ∉ (u.splitOn SLASH).tail.dropLast

theorem splitOn_slash_cons (t : Bytes) : (SLASH :: t).splitOn SLASH = [] :: t.splitOn SLASH := by
  simp [List.splitOn_cons_eq_if_modifyHead]

theorem splitOn_slash_cons_of_ne {c : UInt8} (hc : c ≠ SLASH) (t : Bytes) :
    (c :: t).splitOn SLASH = (t.splitOn SLASH).modifyHead (c :: ·) := by
  simp [List.splitOn_cons_eq_if_modifyHead, hc]

theorem exists_splitOn_slash (t : Bytes) : ∃ hd tl, t.splitOn SLASH = hd :: tl :=
  List.exists_cons_of_ne_nil (List.splitOn_ne_nil SLASH t)

/-- The first of them is what stands before the first slash. -/
theorem takeWhile_of_splitOn {t hd : Bytes} {tl : List Bytes} (h : t.splitOn SLASH = hd :: tl) :
    t.takeWhile (· ≠ SLASH) = hd := by
  induction t generalizing hd with
  | nil =>
    cases h
    rfl
  | cons c t ih =>
    by_cases hc : c = SLASH
    · rw [hc, splitOn_slash_cons] at h
      cases h
      rw [hc]
      rfl
    · obtain ⟨hd', tl', hst⟩ := exists_splitOn_slash t
      rw [splitOn_slash_cons_of_ne hc, hst, List.modifyHead_cons] at h
      cases h
      rw [List.takeWhile_cons_of_pos (by simpa using hc), ih hst]

theorem length_splitOn_slash (t : Bytes) : (t.splitOn SLASH).length = t.count SLASH + 1 := by
  induction t with
  | nil => rfl
  | cons c t ih =>
    by_cases hc : c = SLASH
    · rw [hc, splitOn_slash_cons, List.length_cons, ih, List.count_cons_self]
    · rw [splitOn_slash_cons_of_ne hc, List.length_modifyHead, ih, List.count_cons_of_ne hc]

theorem slash_not_mem_of_mem_splitOn {t s : Bytes} (h : s ∈ t.splitOn SLASH) : SLASH ∉ s := by
  induction t generalizing s with
  | nil =>
    rw [List.splitOn_nil, List.mem_singleton] at h
    simp [h]
  | cons c t ih =>
    by_cases hc : c = SLASH
    · rw [hc, splitOn_slash_cons] at h
      cases h with
      | head => simp
      | tail _ h => exact ih h
    · obtain ⟨hd, tl, hst⟩ := exists_splitOn_slash t
      rw [splitOn_slash_cons_of_ne hc, hst, List.modifyHead_cons] at h
      rw [hst] at ih
      cases h with
      | head =>
        rw [List.mem_cons, not_or]
        exact ⟨fun h => hc h.symm, ih List.mem_cons_self⟩
      | tail _ h => exact ih (List.mem_cons_of_mem _ h)

theorem mem_of_mem_splitOn {t s : Bytes} (h : s ∈ t.splitOn SLASH) {c : UInt8} (hc : c ∈ s) : c ∈ t := by
  induction t generalizing s with
  | nil =>
    rw [List.splitOn_nil, List.mem_singleton] at h
    rwa [h] at hc
  | cons d t ih =>
    by_cases hd : d = SLASH
    · rw [hd, splitOn_slash_cons] at h
      cases h with
      | head => cases hc
      | tail _ h => exact List.mem_cons_of_mem _ (ih h hc)
    · obtain ⟨s', tl, hst⟩ := exists_splitOn_slash t
      rw [splitOn_slash_cons_of_ne hd, hst, List.modifyHead_cons] at h
      rw [hst] at ih
      cases h with
      | head =>
        cases hc with
        | head => exact List.mem_cons_self
        | tail _ hc => exact List.mem_cons_of_mem _ (ih List.mem_cons_self hc)
      | tail _ h => exact List.mem_cons_of_mem _ (ih (List.mem_cons_of_mem _ h) hc)

theorem mem_of_mem_pathText {ss : List Bytes} {c : UInt8} (h : c ∈ pathText ss) :
    c = SLASH ∨ ∃ s ∈ ss, c ∈ s := by
  unfold pathText at h
  cases h with
  | head => exact Or.inl rfl
  | tail _ h =>
    replace h : c ∈ [SLASH].intercalate ss := h
    induction ss with
    | nil => cases h
    | cons s ss ih =>
      cases ss with
      | nil =>
        rw [List.intercalate_singleton] at h
        exact Or.inr ⟨s, List.mem_singleton_self s, h⟩
      | cons s' ss =>
        rw [List.intercalate_cons_cons, List.append_assoc, List.mem_append, List.singleton_append,
          List.mem_cons] at h
        obtain h | h | h := h
        · exact Or.inr ⟨s, List.mem_cons_self, h⟩
        · exact Or.inl h
        · obtain h | ⟨s'', hs'', hc⟩ := ih h
          · exact Or.inl h
          · exact Or.inr ⟨s'', List.mem_cons_of_mem _ hs'', hc⟩

theorem splitOn_pathText {ss : List Bytes} (hss : ∀ s ∈ ss, SLASH ∉ s) :
    ((pathText ss).splitOn SLASH).tail = if ss = [] then [[]] else ss := by
  unfold pathText
  rw [splitOn_slash_cons, List.tail_cons]
  by_cases h : ss = []
  · rw [if_pos h, h]
    rfl
  · rw [if_neg h, List.splitOn_intercalate SLASH hss h]

theorem not_empty_mem_dropLast_iff {hd : Bytes} {tl : List Bytes} (hhd : hd ≠ []) :
    [] ∉ (hd :: tl).dropLast ↔ [] ∉ tl.dropLast := by
  cases tl with
  | nil => simp
  | cons s tl => simp [hhd.symm]

/-- No two slashes stand together exactly if only the last segment can be empty. -/
theorem isChain_notBothSlash_iff (t : Bytes) :
    t.IsChain NotBothSlash ↔ [] ∉ (t.splitOn SLASH).tail.dropLast := by
  induction t with
  | nil => simp
  | cons c t ih =>
    cases t with
    | nil =>
      by_cases hc : c = SLASH
      · simp [hc, splitOn_slash_cons]
      · simp [splitOn_slash_cons_of_ne hc]
    | cons d t =>
      rw [List.isChain_cons_cons, ih]
      by_cases hc : c = SLASH
      · rw [hc, splitOn_slash_cons, List.tail_cons]
        by_cases hd : d = SLASH
        · obtain ⟨s, tl, hst⟩ := exists_splitOn_slash t
          rw [hd, splitOn_slash_cons, hst]
          simp [NotBothSlash]
        · obtain ⟨s, tl, hst⟩ := exists_splitOn_slash t
          rw [splitOn_slash_cons_of_ne hd, hst, List.modifyHead_cons,
            not_empty_mem_dropLast_iff (by simp)]
          simp [NotBothSlash, hd]
      · obtain ⟨s, tl, hst⟩ := exists_splitOn_slash (d :: t)
        rw [splitOn_slash_cons_of_ne hc, hst, List.modifyHead_cons]
        simp [NotBothSlash, hc]

theorem toSlash_ne_backslash (c : UInt8) : toSlash c ≠ BACKSLASH := by
  unfold toSlash
  by_cases h : c = BACKSLASH
  · rw [if_pos h]
    decide
  · rwa [if_neg h]

theorem toSlash_ne_zero {c : UInt8} (h : c ≠ 0) : toSlash c ≠ 0 := by
  unfold toSlash
  by_cases hc : c = BACKSLASH
  · rw [if_pos hc]
    decide
  · rwa [if_neg hc]

theorem mem_collapse {path : Bytes} {c : UInt8} (h : c ∈ collapse path) : ∃ d ∈ path, toSlash d = c :=
  List.mem_map.mp ((List.destutter_sublist NotBothSlash (path.map toSlash)).subset h)

theorem backslash_not_mem_collapse (path : Bytes) : BACKSLASH ∉ collapse path := by
  intro h
  obtain ⟨d, -, hd⟩ := mem_collapse h
  exact toSlash_ne_backslash d hd

theorem length_collapse_le (path : Bytes) : (collapse path).length ≤ path.length := by
  have h := (List.destutter_sublist NotBothSlash (path.map toSlash)).length_le
  rwa [List.length_map] at h

theorem slash_not_mem_segment {path s : Bytes} (h : s ∈ segments path) : SLASH ∉ s :=
  slash_not_mem_of_mem_splitOn (List.mem_of_mem_tail h)

theorem not_empty_mem_segments_dropLast (path : Bytes) : [] ∉ (segments path).dropLast :=
  (isChain_notBothSlash_iff _).mp (List.isChain_destutter NotBothSlash _)

theorem resolve_append (stack ss ss' : List Bytes) :
    resolve stack (ss ++ ss') = (resolve stack ss).bind fun stack => resolve stack ss' := by
  induction ss generalizing stack with
  | nil => rfl
  | cons s ss ih =>
    rw [List.cons_append, resolve, resolve]
    by_cases h1 : s = [DOT]
    · rw [if_pos h1, if_pos h1, ih]
    · rw [if_neg h1, if_neg h1]
      by_cases h2 : s = [DOT, DOT]
      · rw [if_pos h2, if_pos h2]
        by_cases h3 : stack = []
        · rw [if_pos h3, if_pos h3]
          rfl
        · rw [if_neg h3, if_neg h3, ih]
      · rw [if_neg h2, if_neg h2, ih]

/-- The stack has no dot segments, and holds segments of the path in their order. -/
theorem resolve_spec {stack ss out : List Bytes} (h : resolve stack ss = some out) :
    out.Sublist (stack ++ ss) ∧ ((∀ s ∈ stack, s ≠ [DOT] ∧ s ≠ [DOT, DOT]) →
      ∀ s ∈ out, s ≠ [DOT] ∧ s ≠ [DOT, DOT]) := by
  induction ss generalizing stack with
  | nil =>
    cases h
    exact ⟨by simp, id⟩
  | cons s ss ih =>
    rw [resolve] at h
    split at h
    · obtain ⟨hsub, hdots⟩ := ih h
      exact ⟨hsub.trans (List.Sublist.append_left (List.sublist_cons_self s ss) stack), hdots⟩
    · next h1 =>
      split at h
      · split at h
        · cases h
        · obtain ⟨hsub, hdots⟩ := ih h
          refine ⟨hsub.trans ((List.dropLast_sublist stack).append (List.sublist_cons_self s ss)), ?_⟩
          intro hstack
          exact hdots fun s hs => hstack s (List.mem_of_mem_dropLast hs)
      · next h2 =>
        obtain ⟨hsub, hdots⟩ := ih h
        refine ⟨by simpa using hsub, ?_⟩
        intro hstack
        apply hdots
        intro t ht
        rw [List.mem_append, List.mem_singleton] at ht
        obtain ht | rfl := ht
        · exact hstack t ht
        · exact ⟨h1, h2⟩

theorem resolve_of_noDots {stack ss : List Bytes} (h : ∀ s ∈ ss, s ≠ [DOT] ∧ s ≠ [DOT, DOT]) :
    resolve stack ss = some (stack ++ ss) := by
  induction ss generalizing stack with
  | nil => simp [resolve]
  | cons s ss ih =>
    obtain ⟨h1, h2⟩ := h s List.mem_cons_self
    rw [resolve, if_neg h1, if_neg h2, ih fun t ht => h t (List.mem_cons_of_mem _ ht)]
    simp

/-- Only the last segment of the stack can be empty if this holds of the path. -/
theorem resolve_noEmpty {stack ss out : List Bytes} (h : resolve stack ss = some out)
    (hstack : [] ∉ stack) (hss : [] ∉ ss.dropLast) : [] ∉ out.dropLast := by
  cases ss using List.reverseRecOn with
  | nil =>
    cases h
    exact fun hmem => hstack (List.mem_of_mem_dropLast hmem)
  | append_singleton ss s _ =>
    rw [List.dropLast_concat] at hss
    rw [resolve_append] at h
    obtain ⟨mid, hmid, hlast⟩ := Option.bind_eq_some_iff.mp h
    have hnone : [] ∉ mid := by
      intro hmem
      obtain hmem | hmem := List.mem_append.mp ((resolve_spec hmid).1.subset hmem)
      · exact hstack hmem
      · exact hss hmem
    rw [resolve] at hlast
    split at hlast
    · cases hlast
      exact fun hmem => hnone (List.mem_of_mem_dropLast hmem)
    · split at hlast
      · split at hlast
        · cases hlast
        · cases hlast
          exact fun hmem => hnone (List.mem_of_mem_dropLast (List.mem_of_mem_dropLast hmem))
      · cases hlast
        rwa [List.dropLast_concat]

theorem canonical_of_names {ss : List Bytes} (hslash : ∀ s ∈ ss, SLASH ∉ s)
    (hdots : ∀ s ∈ ss, s ≠ [DOT] ∧ s ≠ [DOT, DOT]) (hempty : [] ∉ ss.dropLast)
    (hback : BACKSLASH ∉ pathText ss) : Canonical (pathText ss) := by
  refine ⟨⟨_, rfl⟩, hback, ?_, ?_⟩
  · rw [splitOn_pathText hslash]
    by_cases hnil : ss = []
    · rw [if_pos hnil]
      simp
    · rwa [if_neg hnil]
  · rw [splitOn_pathText hslash]
    by_cases hnil : ss = []
    · rw [if_pos hnil]
      simp
    · rwa [if_neg hnil]

theorem canonical_pathText {path : Bytes} {stack : List Bytes}
    (h : resolve [] (segments path) = some stack) : Canonical (pathText stack) := by
  obtain ⟨hsub, hdots⟩ := resolve_spec h
  rw [List.nil_append] at hsub
  refine canonical_of_names ?_ (hdots (by simp)) ?_ ?_
  · exact fun s hs => slash_not_mem_segment (hsub.subset hs)
  · exact resolve_noEmpty h (by simp) (not_empty_mem_segments_dropLast path)
  · intro hmem
    obtain hc | ⟨s, hs, hc⟩ := mem_of_mem_pathText hmem
    · cases hc
    · exact backslash_not_mem_collapse path
        (mem_of_mem_splitOn (List.mem_of_mem_tail (hsub.subset hs)) hc)

/-- A canonical path is made of its own segments. -/
theorem Canonical.resolve_segments {u : Bytes} (h : Canonical u) :
    ∃ stack, resolve [] (segments u) = some stack ∧ pathText stack = u := by
  obtain ⟨rest, hu⟩ := h.rooted
  have hmap : u.map toSlash = u := by
    refine (List.map_congr_left fun c hc => ?_).trans (List.map_id u)
    have hne : c ≠ BACKSLASH := fun heq => h.noBackslash (heq ▸ hc)
    exact if_neg hne
  have hcollapse : collapse u = u := by
    unfold collapse
    rw [hmap]
    exact List.destutter_of_isChain NotBothSlash u ((isChain_notBothSlash_iff u).mpr h.noEmpty)
  refine ⟨segments u, ?_, ?_⟩
  · unfold segments
    rw [hcollapse, resolve_of_noDots h.noDots, List.nil_append]
  · unfold segments pathText
    rw [hcollapse, hu, splitOn_slash_cons, List.tail_cons, List.intercalate_splitOn]

end Ashttpd
