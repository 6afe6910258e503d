import Ashttpd.PathSegments

/-!
# Directory trees

A directory is the list of its entries in the order they are read, and an entry is a file or a
directory of its own. What is found at a path is found name by name.
-/
namespace Ashttpd

variable {σ : Type}

/-- The entries of a directory, each with what is known of it. -/
inductive DirEntries (σ : Type) where
  | nil
  | file (name : Bytes) (st : σ) (rest : DirEntries σ)
  | dir (name : Bytes) (st : σ) (entries rest : DirEntries σ)

inductive DirNode (σ : Type) where
  | file (st : σ)
  | dir (st : σ) (entries : DirEntries σ)

def DirNode.stat : DirNode σ → σ
  | .file st => st
  | .dir st _ => st

namespace DirEntries

def toList : DirEntries σ → List (Bytes × DirNode σ)
  | .nil => []
  | .file name st rest => (name, .file st) :: rest.toList
  | .dir name st entries rest => (name, .dir st entries) :: rest.toList

def names (es : DirEntries σ) : List Bytes := es.toList.map Prod.fst

def find (es : DirEntries σ) (name : Bytes) : Option (DirNode σ) :=
  (es.toList.find? fun x => x.1 = name).map Prod.snd

/-- How deep directories are nested, files counting as one level. -/
def height : DirEntries σ → ℕ
  | .nil => 0
  | .file _ _ rest => max 1 rest.height
  | .dir _ _ entries rest => max (entries.height + 1) rest.height

/-- The names are of one kind, and different within each directory. -/
def WellNamed (ok : Bytes → Prop) : DirEntries σ → Prop
  | .nil => True
  | .file name _ rest => ok name ∧ name ∉ rest.names ∧ rest.WellNamed ok
  | .dir name _ entries rest =>
    ok name ∧ name ∉ rest.names ∧ entries.WellNamed ok ∧ rest.WellNamed ok

/-- The paths of a directory at `ps`: those of files and directories as they are, those of
directories a second time, marked, before what they hold. -/
def links (ps : List Bytes) : DirEntries σ → List (List Bytes × Bool)
  | .nil => []
  | .file name _ rest => (ps ++ [name], false) :: rest.links ps
  | .dir name _ entries rest =>
    (ps ++ [name], true) :: (entries.links (ps ++ [name]) ++
      (ps ++ [name], false) :: rest.links ps)

/-- What is known of the files and directories below a directory. -/
def stats : DirEntries σ → List σ
  | .nil => []
  | .file _ st rest => st :: rest.stats
  | .dir _ st entries rest => st :: (entries.stats ++ rest.stats)

end DirEntries

/-- What is found at a path below a node. -/
def DirNode.walk : DirNode σ → List Bytes → Option (DirNode σ)
  | n, [] => some n
  | .file _, _ :: _ => none
  | .dir _ es, name :: ps => (es.find name).bind fun n => n.walk ps

def DirNode.IsDir : DirNode σ → Prop
  | .file _ => False
  | .dir _ _ => True

namespace DirNode

@[simp] theorem walk_nil (n : DirNode σ) : n.walk [] = some n := by
  cases n <;> rfl

theorem walk_append (n : DirNode σ) (ps qs : List Bytes) :
    n.walk (ps ++ qs) = (n.walk ps).bind fun m => m.walk qs := by
  induction ps generalizing n with
  | nil => simp
  | cons name ps ih =>
    cases n with
    | file st => rfl
    | dir st es =>
      simp only [List.cons_append, walk]
      cases es.find name with
      | none => rfl
      | some m => exact ih m

theorem walk_snoc {n : DirNode σ} {ps : List Bytes} {st : σ} {es : DirEntries σ}
    (h : n.walk ps = some (.dir st es)) (name : Bytes) : n.walk (ps ++ [name]) = es.find name := by
  rw [walk_append, h]
  simp [walk]

end DirNode

namespace DirEntries

variable {ok : Bytes → Prop} {es : DirEntries σ} {name : Bytes} {node : DirNode σ}

theorem WellNamed.nodup (h : es.WellNamed ok) : es.names.Nodup := by
  induction es with
  | nil => exact List.nodup_nil
  | file name st rest ih => exact List.nodup_cons.mpr ⟨h.2.1, ih h.2.2⟩
  | dir name st entries rest _ ih => exact List.nodup_cons.mpr ⟨h.2.1, ih h.2.2.2⟩

theorem mem_of_find (h : es.find name = some node) : (name, node) ∈ es.toList := by
  unfold find at h
  obtain ⟨x, hx, rfl⟩ := Option.map_eq_some_iff.mp h
  have hname : x.1 = name := by simpa using List.find?_some hx
  rw [← hname]
  exact List.mem_of_find?_eq_some hx

theorem walk_file {st st' : σ} {rest : DirEntries σ} {q : Bytes} {ps : List Bytes} :
    (DirNode.dir st (.file name st' rest)).walk (q :: ps) =
      if name = q then (DirNode.file st').walk ps else (DirNode.dir st rest).walk (q :: ps) := by
  by_cases h : name = q <;> simp [DirNode.walk, find, toList, h]

theorem walk_dir {st st' : σ} {entries rest : DirEntries σ} {q : Bytes} {ps : List Bytes} :
    (DirNode.dir st (.dir name st' entries rest)).walk (q :: ps) =
      if name = q then (DirNode.dir st' entries).walk ps else (DirNode.dir st rest).walk (q :: ps) := by
  by_cases h : name = q <;> simp [DirNode.walk, find, toList, h]

/-- What is found below a directory is among what is known there. -/
theorem mem_stats_of_walk {st : σ} {q : Bytes} {ps : List Bytes} (h : (DirNode.dir st es).walk (q :: ps) = some node) :
    node.stat ∈ es.stats := by
  induction es generalizing st q ps with
  | nil => cases h
  | file name st' rest ih =>
    rw [walk_file] at h
    split at h
    · cases ps with
      | nil =>
        obtain rfl := Option.some.inj h
        exact List.mem_cons_self
      | cons _ _ => cases h
    · exact List.mem_cons_of_mem _ (ih h)
  | dir name st' entries rest ihe ihr =>
    rw [walk_dir] at h
    split at h
    · cases ps with
      | nil =>
        obtain rfl := Option.some.inj h
        exact List.mem_cons_self
      | cons q' ps => exact List.mem_cons_of_mem _ (List.mem_append_left _ (ihe h))
    · exact List.mem_cons_of_mem _ (List.mem_append_right _ (ihr h))

theorem mem_of_walk {st : σ} {ps : List Bytes} (h : (DirNode.dir st es).walk ps = some node) :
    node.stat ∈ st :: es.stats := by
  cases ps with
  | nil =>
    obtain rfl := Option.some.inj h
    exact List.mem_cons_self
  | cons q ps => exact List.mem_cons_of_mem _ (mem_stats_of_walk h)

theorem walk_file_eq_some {st : σ} {ps : List Bytes} (h : (DirNode.file st).walk ps = some node) :
    ps = [] ∧ node = .file st := by
  cases ps with
  | nil => exact ⟨rfl, (Option.some.inj h).symm⟩
  | cons q ps => cases h

section key

variable {β : Type*} {f : σ → β} {st : σ} {ps qs : List Bytes} {m n : DirNode σ}

theorem key_ne_of_walk {q : Bytes} (h : ((st :: es.stats).map f).Nodup)
    (hn : (DirNode.dir st es).walk (q :: ps) = some n) : f n.stat ≠ f st := by
  intro heq
  rw [List.map_cons, List.nodup_cons] at h
  exact h.1 (heq ▸ List.mem_map_of_mem (mem_stats_of_walk hn))

/-- Only the empty path leads to the directory itself. -/
theorem walk_key_cases (h : ((st :: es.stats).map f).Nodup) (hm : (DirNode.dir st es).walk ps = some m)
    (hn : (DirNode.dir st es).walk qs = some n) (heq : f m.stat = f n.stat) :
    ps = [] ∧ qs = [] ∨ ∃ p ps' q qs', ps = p :: ps' ∧ qs = q :: qs' := by
  cases ps with
  | nil =>
    obtain rfl := Option.some.inj hm
    cases qs with
    | nil => exact .inl ⟨rfl, rfl⟩
    | cons q qs => exact absurd heq.symm (key_ne_of_walk h hn)
  | cons p ps =>
    cases qs with
    | nil =>
      obtain rfl := Option.some.inj hn
      exact absurd heq (key_ne_of_walk h hm)
    | cons q qs => exact .inr ⟨p, ps, q, qs, rfl, rfl⟩

/-- Where no two files and directories share a key, the key tells the path. The induction is on the entries: two
paths both go to the first of them, or both past it. -/
theorem walk_key_injective (h : ((st :: es.stats).map f).Nodup) (hm : (DirNode.dir st es).walk ps = some m)
    (hn : (DirNode.dir st es).walk qs = some n) (heq : f m.stat = f n.stat) : ps = qs := by
  induction es generalizing st ps qs m n with
  | nil =>
    obtain ⟨rfl, rfl⟩ | ⟨p, ps, q, qs, rfl, rfl⟩ := walk_key_cases h hm hn heq
    · rfl
    · cases hm
  | file name st' rest ih =>
    obtain ⟨rfl, rfl⟩ | ⟨p, ps, q, qs, rfl, rfl⟩ := walk_key_cases h hm hn heq
    · rfl
    · have hrest : ((st :: rest.stats).map f).Nodup := h.sublist (by simp [stats])
      have happart : ∀ x ∈ rest.stats, f st' ≠ f x := by
        simp only [stats, List.map_cons, List.nodup_cons, List.mem_map, not_exists, not_and] at h
        exact fun x hx hkey => h.2.1 x hx hkey.symm
      rw [walk_file] at hm hn
      split at hm <;> split at hn
      · rename_i hp hq
        obtain ⟨rfl, rfl⟩ := walk_file_eq_some hm
        obtain ⟨rfl, rfl⟩ := walk_file_eq_some hn
        rw [← hp, ← hq]
      · obtain ⟨rfl, rfl⟩ := walk_file_eq_some hm
        exact absurd heq (happart _ (mem_stats_of_walk hn))
      · obtain ⟨rfl, rfl⟩ := walk_file_eq_some hn
        exact absurd heq.symm (happart _ (mem_stats_of_walk hm))
      · exact ih hrest hm hn heq
  | dir name st' entries rest ihe ihr =>
    obtain ⟨rfl, rfl⟩ | ⟨p, ps, q, qs, rfl, rfl⟩ := walk_key_cases h hm hn heq
    · rfl
    · have hfirst : ((st' :: entries.stats).map f).Nodup := h.sublist (by simp [stats])
      have hrest : ((st :: rest.stats).map f).Nodup := h.sublist (by simp [stats])
      have happart : ∀ x ∈ st' :: entries.stats, ∀ y ∈ rest.stats, f x ≠ f y := by
        rw [stats, List.map_cons, ← List.cons_append, List.nodup_cons, List.map_append, List.nodup_append] at h
        exact fun x hx y hy => h.2.2.2 _ (List.mem_map_of_mem hx) _ (List.mem_map_of_mem hy)
      rw [walk_dir] at hm hn
      split at hm <;> split at hn
      · rename_i hp hq
        rw [← hp, ← hq, ihe hfirst hm hn heq]
      · exact absurd heq (happart _ (mem_of_walk hm) _ (mem_stats_of_walk hn))
      · exact absurd heq.symm (happart _ (mem_of_walk hn) _ (mem_stats_of_walk hm))
      · exact ihr hrest hm hn heq

end key

theorem find_of_mem {l : List (Bytes × DirNode σ)} (hnodup : (l.map Prod.fst).Nodup)
    (h : (name, node) ∈ l) : (l.find? fun x => x.1 = name) = some (name, node) := by
  induction l with
  | nil => exact nomatch h
  | cons x l ih =>
    rw [List.map_cons, List.nodup_cons] at hnodup
    cases h with
    | head => simp
    | tail _ h =>
      have hne : x.1 ≠ name := by
        rintro rfl
        exact hnodup.1 (List.mem_map.mpr ⟨_, h, rfl⟩)
      rw [List.find?_cons_of_neg (by simpa using hne)]
      exact ih hnodup.2 h

theorem WellNamed.find_iff (h : es.WellNamed ok) :
    es.find name = some node ↔ (name, node) ∈ es.toList := by
  refine ⟨mem_of_find, fun hmem => ?_⟩
  rw [find, find_of_mem h.nodup hmem]
  rfl

theorem WellNamed.of_mem (h : es.WellNamed ok) (hmem : (name, node) ∈ es.toList) :
    ok name ∧ ∀ st entries, node = .dir st entries → entries.WellNamed ok := by
  induction es with
  | nil => exact nomatch hmem
  | file n st rest ih =>
    cases hmem with
    | head => exact ⟨h.1, fun st entries h => nomatch h⟩
    | tail _ hmem => exact ih h.2.2 hmem
  | dir n st entries rest _ ih =>
    cases hmem with
    | head =>
      refine ⟨h.1, fun st' entries' heq => ?_⟩
      obtain ⟨rfl, rfl⟩ := DirNode.dir.inj heq
      exact h.2.2.1
    | tail _ hmem => exact ih h.2.2.2 hmem

/-- The names along a path of a well named tree are of the kind. -/
theorem WellNamed.walk {st : σ} {ps : List Bytes} (h : es.WellNamed ok)
    (hwalk : (DirNode.dir st es).walk ps = some node) :
    (∀ name ∈ ps, ok name) ∧ ∀ st entries, node = .dir st entries → entries.WellNamed ok := by
  induction ps generalizing es st with
  | nil =>
    rw [DirNode.walk_nil, Option.some.injEq] at hwalk
    refine ⟨by simp, fun st' entries' heq => ?_⟩
    obtain ⟨rfl, rfl⟩ := DirNode.dir.inj (hwalk.trans heq)
    exact h
  | cons name ps ih =>
    obtain ⟨n, hfind, hrest⟩ := Option.bind_eq_some_iff.mp hwalk
    obtain ⟨hok, hsub⟩ := h.of_mem (mem_of_find hfind)
    cases n with
    | file st' =>
      cases ps with
      | nil =>
        rw [DirNode.walk_nil, Option.some.injEq] at hrest
        subst hrest
        exact ⟨by simpa using hok, fun st entries heq => nomatch heq⟩
      | cons _ _ => exact nomatch hrest
    | dir st' es' =>
      obtain ⟨hoks, hnode⟩ := ih (hsub st' es' rfl) hrest
      exact ⟨by simpa using ⟨hok, hoks⟩, hnode⟩

theorem exists_entry_cons_iff {x : Bytes × DirNode σ} {l : List (Bytes × DirNode σ)}
    {P : Bytes → DirNode σ → Prop} :
    (∃ name n, (name, n) ∈ x :: l ∧ P name n) ↔ P x.1 x.2 ∨ ∃ name n, (name, n) ∈ l ∧ P name n := by
  constructor
  · rintro ⟨name, n, hmem, hP⟩
    cases hmem with
    | head => exact .inl hP
    | tail _ hmem => exact .inr ⟨name, n, hmem, hP⟩
  · rintro (hP | ⟨name, n, hmem, hP⟩)
    · exact ⟨x.1, x.2, List.mem_cons_self, hP⟩
    · exact ⟨name, n, List.mem_cons_of_mem _ hmem, hP⟩

/-- A link leads to an entry of the directory or to what is below one. -/
theorem WellNamed.mem_links_iff (h : es.WellNamed ok) {ps qs : List Bytes} {b : Bool} :
    (qs, b) ∈ es.links ps ↔ ∃ name n, (name, n) ∈ es.toList ∧
      ∃ r node, n.walk r = some node ∧ (b = true → node.IsDir) ∧ qs = ps ++ name :: r := by
  induction es generalizing ps with
  | nil => simp [links, toList]
  | file name st rest ih =>
    rw [links, List.mem_cons, ih h.2.2, toList, exists_entry_cons_iff]
    apply or_congr_left
    constructor
    · rintro heq
      obtain ⟨rfl, rfl⟩ := Prod.mk.inj heq
      exact ⟨[], .file st, rfl, by simp, rfl⟩
    · rintro ⟨r, node, hwalk, hb, rfl⟩
      cases r with
      | cons _ _ => exact nomatch hwalk
      | nil =>
        obtain rfl : DirNode.file st = node := Option.some.inj hwalk
        have hfalse : b = false := by simpa [DirNode.IsDir] using hb
        rw [hfalse]
  | dir name st entries rest ihsub ih =>
    rw [links, List.mem_cons, List.mem_append, List.mem_cons, ihsub h.2.2.1, ih h.2.2.2, toList,
      exists_entry_cons_iff, ← or_assoc, ← or_assoc]
    apply or_congr_left
    constructor
    · rintro ((heq | ⟨name', n, hmem, r, node, hwalk, hb, rfl⟩) | heq)
      · obtain ⟨rfl, rfl⟩ := Prod.mk.inj heq
        exact ⟨[], .dir st entries, rfl, fun _ => trivial, rfl⟩
      · refine ⟨name' :: r, node, ?_, hb, by simp⟩
        rw [DirNode.walk, h.2.2.1.find_iff.mpr hmem]
        exact hwalk
      · obtain ⟨rfl, rfl⟩ := Prod.mk.inj heq
        exact ⟨[], .dir st entries, rfl, fun _ => trivial, rfl⟩
    · rintro ⟨r, node, hwalk, hb, rfl⟩
      cases r with
      | nil =>
        cases b with
        | true => exact .inl (.inl rfl)
        | false => exact .inr rfl
      | cons name' r =>
        obtain ⟨n, hfind, hrest⟩ := Option.bind_eq_some_iff.mp hwalk
        exact .inl (.inr ⟨name', n, mem_of_find hfind, r, node, hrest, hb, by simp⟩)

/-- No path is linked twice. -/
theorem WellNamed.nodup_links (h : es.WellNamed ok) (ps : List Bytes) : (es.links ps).Nodup := by
  induction es generalizing ps with
  | nil => exact List.nodup_nil
  | file name st rest ih =>
    refine List.nodup_cons.mpr ⟨fun hmem => ?_, ih h.2.2 ps⟩
    obtain ⟨name', n, hin, r, node, -, -, heq⟩ := h.2.2.mem_links_iff.mp hmem
    obtain ⟨rfl, -⟩ := List.cons.inj (List.append_cancel_left heq)
    exact h.2.1 (List.mem_map.mpr ⟨_, hin, rfl⟩)
  | dir name st entries rest ihsub ih =>
    obtain ⟨-, hnew, hsub, hrest⟩ := h
    have hbelow : ∀ b, (ps ++ [name], b) ∉ entries.links (ps ++ [name]) := by
      intro b hmem
      obtain ⟨name', n, -, r, node, -, -, heq⟩ := hsub.mem_links_iff.mp hmem
      have hlen := congrArg List.length heq
      simp only [List.length_append, List.length_cons] at hlen
      omega
    have hother : ∀ qs b, (ps ++ name :: qs, b) ∉ rest.links ps := by
      intro qs b hmem
      obtain ⟨name', n, hin, r, node, -, -, heq⟩ := hrest.mem_links_iff.mp hmem
      obtain ⟨rfl, -⟩ := List.cons.inj (List.append_cancel_left heq)
      exact hnew (List.mem_map.mpr ⟨_, hin, rfl⟩)
    refine List.nodup_cons.mpr ⟨?_, List.nodup_append'.mpr ⟨ihsub hsub _, ?_, ?_⟩⟩
    · simp only [List.mem_append, List.mem_cons, Prod.mk.injEq, Bool.true_eq_false, and_false,
        false_or, not_or]
      exact ⟨hbelow true, hother [] true⟩
    · exact List.nodup_cons.mpr ⟨hother [] false, ih hrest ps⟩
    · rintro ⟨qs, b⟩ hmem hmem'
      cases hmem' with
      | head => exact hbelow false hmem
      | tail _ hmem' =>
        obtain ⟨name', n, -, r, node, -, -, heq⟩ := hsub.mem_links_iff.mp hmem
        rw [List.append_assoc] at heq
        exact hother _ b (heq ▸ hmem')

end DirEntries

end Ashttpd
