import Ashttpd.Site
import Ashttpd.Teardown
import Ashttpd.WebrootUse

/-!
# References to webroots over the runs of a site

As long as no reference is taken in place of another one, those that are not dropped are held by
connections. So a webroot that the table has given back, and that no connection holds any more, is
unmapped.
-/
namespace Ashttpd

variable {r : Webroots} {fio : Fio} {s : Server} {h : HttpConn} {p p' : ConnPool} {ev : PoolEvent} {t t' : Site}

def Peer.Balanced (q : Peer) : Prop := RefBalanced q.conn ∧ (q.destroyed = true → q.conn.hWebroot = none)

theorem Retained.refl (hb : RefBalanced h) : Retained h h := ⟨hb, List.prefix_refl _⟩

theorem Retained.httpDtor (hb : RefBalanced h) : Retained h h.httpDtor ∧ h.httpDtor.hWebroot = none := by
  have hdead : Retained h (h.withState .dead) := ⟨hb, List.prefix_refl _⟩
  refine ⟨hdead.dropWebroot, ?_⟩
  unfold HttpConn.httpDtor
  obtain ⟨heq, hnone⟩ | ⟨w, -, heq⟩ := dropWebroot_cases (h.withState .dead)
  · rw [heq]
    exact hnone
  · rw [heq]
    rfl

theorem Peer.Balanced.count {q : Peer} (hq : q.Balanced) (w : ℕ) :
    q.conn.log.count (.webrootRef w) = q.conn.log.count (.webrootUnref w) +
      if (!q.destroyed && q.conn.hWebroot == some w) = true then 1 else 0 := by
  obtain ⟨hbal, hgone⟩ := hq
  rw [hbal w]
  cases hd : q.destroyed with
  | false => simp
  | true => simp [hgone hd]

theorem taken_eq (hp : ∀ q ∈ p.peers, q.Balanced) (w : ℕ) : p.taken w = p.dropped w + p.holding w := by
  obtain ⟨peers, n⟩ := p
  unfold ConnPool.taken ConnPool.dropped ConnPool.holding
  dsimp only at hp ⊢
  induction peers with
  | nil => rfl
  | cons q peers ih =>
    have htail := ih fun q' hq' => hp q' (List.mem_cons_of_mem _ hq')
    have hhead := (hp q (List.mem_cons_self ..)).count w
    rw [List.map_cons, List.map_cons, List.sum_cons, List.sum_cons, List.countP_cons, htail, hhead]
    omega

/-- The references to every webroot are those of `n` and the table's, which it may have given back. -/
structure Vhosts.HeldBy (v : Vhosts) (n : ℕ → ℕ) : Prop where
  unrefs : ∀ w ∈ v.unrefs, w < v.roots.length
  counts : ∀ w root, v.roots[w]? = some root → root.rRef + v.unrefs.count w = 1 + n w
  unopened : ∀ w, v.roots.length ≤ w → n w = 0

namespace Vhosts

variable {v v' : Vhosts} {n : ℕ → ℕ}

theorem HeldBy.webrootOpen (hv : v.HeldBy n) (file : ℕ) : (v.webrootOpen file).HeldBy n := by
  refine ⟨fun w hw => ?_, fun w root hroot => ?_, fun w hw => ?_⟩
  · show w < (v.roots ++ [(⟨file, 1⟩ : OpenRoot)]).length
    rw [List.length_append]
    exact Nat.lt_add_right _ (hv.unrefs w hw)
  · have hroot' : (v.roots ++ [(⟨file, 1⟩ : OpenRoot)])[w]? = some root := hroot
    obtain hlt | hge := Nat.lt_or_ge w v.roots.length
    · rw [List.getElem?_append_left hlt] at hroot'
      exact hv.counts w root hroot'
    · rw [List.getElem?_append_right hge] at hroot'
      have hone : root.rRef = 1 := by
        rw [List.mem_singleton.mp (List.mem_of_getElem? hroot')]
      have hcount : v.unrefs.count w = 0 :=
        List.count_eq_zero.mpr fun hw => Nat.not_lt.mpr hge (hv.unrefs w hw)
      rw [hone, hv.unopened w hge]
      exact congrArg (1 + ·) hcount
  · have hw' : (v.roots ++ [(⟨file, 1⟩ : OpenRoot)]).length ≤ w := hw
    rw [List.length_append] at hw'
    exact hv.unopened w (Nat.le_of_add_right_le hw')

/-- The table gives back a reference, or none. -/
theorem HeldBy.webrootUnref (hv : v.HeldBy n) {w : Option ℕ} (hok : v.webrootUnref w = .ok v') : v'.HeldBy n := by
  unfold Vhosts.webrootUnref at hok
  cases w with
  | none =>
    cases hok
    exact hv
  | some i =>
    dsimp only at hok
    split at hok
    · cases hok
    · next root hroot =>
      split at hok
      · cases hok
      · next hpos =>
        cases hok
        obtain ⟨hi, -⟩ := List.getElem?_eq_some_iff.mp hroot
        refine ⟨fun w hw => ?_, fun w root' hroot' => ?_, fun w hw => ?_⟩
        · rw [List.length_set]
          obtain hw | hw := List.mem_append.mp hw
          · exact hv.unrefs w hw
          · rwa [List.mem_singleton.mp hw]
        · rw [List.count_append]
          by_cases heq : i = w
          · subst heq
            rw [List.getElem?_set_self hi] at hroot'
            cases hroot'
            have hold := hv.counts i root hroot
            rw [List.count_singleton_self]
            show root.rRef - 1 + _ = _
            omega
          · rw [List.getElem?_set_ne heq] at hroot'
            rw [List.count_singleton, if_neg (by simpa using heq)]
            exact hv.counts w root' hroot'
        · rw [List.length_set] at hw
          exact hv.unopened w hw

theorem HeldBy.addName (hv : v.HeldBy n) {name : CStr} {w : ℕ} {a : Allocs} (hok : v.addName name w a = .ok v') :
    v'.HeldBy n := by
  unfold Vhosts.addName at hok
  obtain ⟨res, -, hok⟩ := bind_eq_ok_iff.mp hok
  split at hok
  · obtain ⟨v₁, hunref, hok⟩ := bind_eq_ok_iff.mp hok
    cases hok
    have hv₁ := HeldBy.webrootUnref (v := { v with vhosts := res.tree }) ⟨hv.unrefs, hv.counts, hv.unopened⟩ hunref
    exact ⟨hv₁.unrefs, hv₁.counts, hv₁.unopened⟩
  · cases hok
    exact ⟨hv.unrefs, hv.counts, hv.unopened⟩

theorem HeldBy.vhostAdd (hv : v.HeldBy n) {name : CStr} {isdir : Bool} {file : Option ℕ} {a : Allocs}
    (hok : v.vhostAdd name isdir file a = .ok v') : v'.HeldBy n := by
  unfold Vhosts.vhostAdd at hok
  split at hok
  · cases hok
    exact hv
  · split at hok
    · cases hok
      exact hv
    · dsimp only at hok
      split at hok
      · obtain ⟨v₁, hunref, hok⟩ := bind_eq_ok_iff.mp hok
        cases hok
        have hv₁ := (hv.webrootOpen _).webrootUnref hunref
        exact ⟨hv₁.unrefs, hv₁.counts, hv₁.unopened⟩
      · exact (hv.webrootOpen _).addName hok

theorem HeldBy.vhostDel (hv : v.HeldBy n) {name : CStr} {isdir : Bool} (hok : v.vhostDel name isdir = .ok v') :
    v'.HeldBy n := by
  unfold Vhosts.vhostDel at hok
  split at hok
  · cases hok
    exact hv
  · split at hok
    · obtain ⟨v₁, hunref, hok⟩ := bind_eq_ok_iff.mp hok
      cases hok
      have hv₁ := hv.webrootUnref hunref
      exact ⟨hv₁.unrefs, hv₁.counts, hv₁.unopened⟩
    · dsimp only at hok
      split at hok
      · cases hok
      · exact HeldBy.webrootUnref (v := { v with vhosts := (cbDelete v.vhosts name).tree })
          ⟨hv.unrefs, hv.counts, hv.unopened⟩ hok

end Vhosts

/-- References were taken and dropped as a log tells, of webroots that were opened. -/
structure Referred (roots : List OpenRoot) (new : List Event) (roots' : List OpenRoot) : Prop where
  length : roots'.length = roots.length
  counts : ∀ w root', roots'[w]? = some root' → ∃ root, roots[w]? = some root ∧
    root'.rRef + new.count (.webrootUnref w) = root.rRef + new.count (.webrootRef w)
  opened : ∀ w, .webrootRef w ∈ new → w < roots.length

theorem Referred.nil (roots : List OpenRoot) : Referred roots [] roots :=
  ⟨rfl, fun _ root hroot => ⟨root, hroot, rfl⟩, fun _ hw => (nomatch hw)⟩

theorem Referred.cons {roots roots₁ roots' : List OpenRoot} {e : Event} {new : List Event}
    (hfirst : Referred roots [e] roots₁) (hrest : Referred roots₁ new roots') : Referred roots (e :: new) roots' := by
  refine ⟨hrest.length.trans hfirst.length, fun w root' hroot' => ?_, fun w hw => ?_⟩
  · obtain ⟨root₁, hroot₁, hcount₁⟩ := hrest.counts w root' hroot'
    obtain ⟨root, hroot, hcount⟩ := hfirst.counts w root₁ hroot₁
    refine ⟨root, hroot, ?_⟩
    rw [← List.singleton_append, List.count_append, List.count_append]
    omega
  · obtain rfl | hw := List.mem_cons.mp hw
    · exact hfirst.opened w (List.mem_singleton_self _)
    · exact hfirst.length ▸ hrest.opened w hw

/-- A webroot gets another number of references, and the others keep theirs. -/
theorem Referred.set {roots : List OpenRoot} {e : Event} {w k : ℕ} {root : OpenRoot} (hroot : roots[w]? = some root)
    (hself : k + [e].count (.webrootUnref w) = root.rRef + [e].count (.webrootRef w))
    (hother : ∀ w', w ≠ w' → .webrootUnref w' ≠ e ∧ .webrootRef w' ≠ e) :
    Referred roots [e] (roots.set w { root with rRef := k }) := by
  obtain ⟨hw, -⟩ := List.getElem?_eq_some_iff.mp hroot
  refine ⟨List.length_set, fun w' root' hroot' => ?_, fun w' hw' => ?_⟩
  · by_cases heq : w = w'
    · subst heq
      rw [List.getElem?_set_self hw] at hroot'
      cases hroot'
      exact ⟨root, hroot, hself⟩
    · rw [List.getElem?_set_ne heq] at hroot'
      obtain ⟨hunref, href⟩ := hother w' heq
      refine ⟨root', hroot', ?_⟩
      rw [List.count_eq_zero.mpr (by simpa using hunref), List.count_eq_zero.mpr (by simpa using href)]
  · by_cases heq : w = w'
    · rwa [← heq]
    · exact absurd (List.mem_singleton.mp hw') (hother w' heq).2

theorem referred_of_refer {roots roots' : List OpenRoot} {e : Event} (hok : refer roots e = .ok roots') :
    Referred roots [e] roots' := by
  unfold refer at hok
  cases e with
  | webrootRef w =>
    dsimp only at hok
    split at hok
    · cases hok
    · next root hroot =>
      split at hok
      · cases hok
      · cases hok
        exact .set hroot (by simp) fun w' hne => ⟨by simp, by simpa using hne.symm⟩
  | webrootUnref w =>
    dsimp only at hok
    split at hok
    · cases hok
    · next root hroot =>
      split at hok
      · cases hok
      · next hpos =>
        cases hok
        refine .set hroot ?_ fun w' hne => ⟨by simpa using hne.symm, by simp⟩
        simp
        omega
  | received | sent | answered | complete | closed | freed =>
    cases hok
    exact ⟨rfl, fun w root hroot => ⟨root, hroot, by simp⟩, by simp⟩

theorem referred_of_foldlM {roots roots' : List OpenRoot} {new : List Event} (hok : new.foldlM refer roots = .ok roots') :
    Referred roots new roots' := by
  induction new generalizing roots with
  | nil =>
    cases hok
    exact .nil _
  | cons e new ih =>
    rw [List.foldlM_cons] at hok
    obtain ⟨roots₁, hfirst, hrest⟩ := bind_eq_ok_iff.mp hok
    exact (referred_of_refer hfirst).cons (ih hrest)

/-- The connections have taken and dropped the references that they now have more or less. -/
theorem Vhosts.HeldBy.refer {v : Vhosts} {n n' : ℕ → ℕ} {new : List Event} {roots : List OpenRoot} (hv : v.HeldBy n)
    (href : Referred v.roots new roots)
    (hn : ∀ w, n' w + new.count (.webrootUnref w) = n w + new.count (.webrootRef w)) :
    ({ v with roots := roots } : Vhosts).HeldBy n' := by
  refine ⟨fun w hw => href.length ▸ hv.unrefs w hw, fun w root hroot => ?_, fun w hw => ?_⟩
  · obtain ⟨root₀, hroot₀, hcount⟩ := href.counts w root hroot
    have hold := hv.counts w root₀ hroot₀
    have hnew := hn w
    show root.rRef + v.unrefs.count w = 1 + n' w
    omega
  · have hge : v.roots.length ≤ w := href.length ▸ hw
    have hnone : new.count (.webrootRef w) = 0 :=
      List.count_eq_zero.mpr fun hmem => Nat.not_lt.mpr hge (href.opened w hmem)
    have hnew := hn w
    rw [hv.unopened w hge] at hnew
    omega

/-- One connection of the pool has changed. -/
theorem Peer.Balanced.change {q q' : Peer} {i : ℕ} (hq : p.peers[i]? = some q) (hbal : q.Balanced) (hbal' : q'.Balanced)
    (hset : p'.peers = p.peers.set i q') (hlog : q.conn.log <+: q'.conn.log) (hev : ev = .dtor i ∨ ∃ e, ev = .conn i e)
    (w : ℕ) : p'.holding w + (p.news p' ev).count (.webrootUnref w) = p.holding w + (p.news p' ev).count (.webrootRef w) := by
  obtain ⟨new, hnew⟩ := hlog
  obtain ⟨hi, hget⟩ := List.getElem?_eq_some_iff.mp hq
  have hq' : p'.peers[i]? = some q' := by
    rw [hset, List.getElem?_set_self hi]
  have hnews : p.news p' ev = new := by
    have hdrop : q'.conn.log.drop q.conn.log.length = new := by
      rw [← hnew, List.drop_left]
    unfold ConnPool.news
    obtain rfl | ⟨e, rfl⟩ := hev
    · dsimp only
      rw [hq, hq']
      exact hdrop
    · dsimp only
      rw [hq, hq']
      exact hdrop
  have hcount := hbal.count w
  have hcount' := hbal'.count w
  rw [← hnew, List.count_append, List.count_append] at hcount'
  have hset' := List.countP_set (p := fun q => !q.destroyed && q.conn.hWebroot == some w) (a := q') hi
  rw [hget] at hset'
  have hpos : (!q.destroyed && q.conn.hWebroot == some w) = true → 0 < p.holding w := fun hheld =>
    List.countP_pos_iff.mpr ⟨q, List.mem_of_getElem? hq, hheld⟩
  have hholding : p'.holding w = p.holding w - (if (!q.destroyed && q.conn.hWebroot == some w) = true then 1 else 0) +
      if (!q'.destroyed && q'.conn.hWebroot == some w) = true then 1 else 0 := by
    unfold ConnPool.holding
    rw [hset]
    exact hset'
  rw [hnews, hholding]
  split at hcount
  · next hheld =>
    have := hpos hheld
    rw [if_pos hheld]
    omega
  · next hfree =>
    rw [if_neg hfree]
    omega

end Ashttpd
