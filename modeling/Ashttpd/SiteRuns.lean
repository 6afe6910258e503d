import Ashttpd.GuardedRuns
import Ashttpd.SiteRefs

/-!
# Runs of a site

The references to a webroot are the table's, which it gives back once, and one for each connection that
points to it, over every run in which no reference is taken in place of another one.
-/
namespace Ashttpd

variable {r : Webroots} {fio : Fio} {t t' : Site} {ev : SiteEvent}

def Vhosts.Unmapped (v : Vhosts) (w : ℕ) : Prop := ∃ root, v.roots[w]? = some root ∧ root.rRef = 0

namespace Site

/-- No reference is taken in place of the one to the webroot of an earlier file. -/
def Spares (r : Webroots) (fio : Fio) (t : Site) : SiteEvent → Prop
  | .pool (.conn i (.read o)) =>
    ∀ q, t.pool.peers[i]? = some q → q.conn.hWebroot = none ∨ ¬ TakesRoot (t.server r fio) q.conn o
  | _ => True

/-- The connections are balanced, and the references to the webroots are theirs and the table's. -/
structure RefsHold (t : Site) : Prop where
  conns : ∀ q ∈ t.pool.peers, q.Balanced
  table : t.vhosts.HeldBy t.pool.holding

theorem RefsHold.empty : empty.RefsHold :=
  ⟨fun _ hq => (nomatch hq), fun _ hw => (nomatch hw), fun _ _ hroot => (nomatch hroot), fun _ _ => rfl⟩

theorem RefsHold.vhostStep (ht : t.RefsHold) {e : VhostEvent} {v : Vhosts} (hok : t.vhostStep e = .ok v) :
    v.HeldBy t.pool.holding := by
  cases e with
  | add name isdir file a => exact ht.table.vhostAdd hok
  | del name isdir => exact ht.table.vhostDel hok

theorem balanced_httpConn : (Peer.mk .httpConn false).Balanced := ⟨fun _ => rfl, nofun⟩

/-- A step of the pool keeps the connections balanced, and tells the references that were taken and dropped. -/
theorem RefsHold.poolStep (ht : t.RefsHold) {ev : PoolEvent} {p : ConnPool} (hspares : t.Spares r fio (.pool ev))
    (hstep : t.pool.Steps (t.server r fio) ev p) : (∀ q ∈ p.peers, q.Balanced) ∧
    ∀ w, p.holding w + (t.pool.news p ev).count (.webrootUnref w) =
      t.pool.holding w + (t.pool.news p ev).count (.webrootRef w) := by
  have hset : ∀ {q'} {i : ℕ}, q'.Balanced → ∀ q ∈ t.pool.peers.set i q', q.Balanced := by
    intro q' i hq' q hq
    obtain hmem | rfl := List.mem_or_eq_of_mem_set hq
    · exact ht.conns q hmem
    · exact hq'
  cases hstep.change with
  | accept =>
    refine ⟨fun q hq => ?_, fun w => ?_⟩
    · obtain hmem | hnew := List.mem_append.mp hq
      · exact ht.conns q hmem
      · rw [List.mem_singleton.mp hnew]
        exact balanced_httpConn
    · show (t.pool.peers ++ [(⟨.httpConn, false⟩ : Peer)]).countP _ + 0 = _
      rw [List.countP_append]
      rfl
  | @conn i e h h' p hpeer hconn hchanged =>
    have hbal := ht.conns _ (List.mem_of_getElem? hpeer)
    have hretained : Retained h h' := by
      refine (Retained.refl hbal.1).step ?_ hconn
      rintro o rfl
      exact hspares ⟨h, false⟩ hpeer
    have hbal' : (Peer.mk h' false).Balanced := ⟨hretained.balanced, nofun⟩
    have hpeers := ConnPool.changed_peers hchanged
    refine ⟨hpeers ▸ hset hbal', ?_⟩
    exact hbal.change hpeer hbal' hpeers hretained.log (Or.inr ⟨e, rfl⟩)
  | @dtor i h hpeer hlist =>
    have hbal := ht.conns _ (List.mem_of_getElem? hpeer)
    obtain ⟨hretained, hnone⟩ := Retained.httpDtor hbal.1
    have hbal' : (Peer.mk h.httpDtor true).Balanced := ⟨hretained.balanced, fun _ => hnone⟩
    exact ⟨hset hbal', hbal.change hpeer hbal' rfl hretained.log (Or.inl rfl)⟩

theorem RefsHold.step (ht : t.RefsHold) (hspares : t.Spares r fio ev) (hstep : t.Steps r fio ev t') : t'.RefsHold := by
  unfold Site.Steps Site.step at hstep
  cases ev with
  | vhost e =>
    obtain ⟨v, hv, heq⟩ := map_eq_ok_iff.mp hstep
    cases heq
    exact ⟨ht.conns, ht.vhostStep hv⟩
  | pool ev =>
    dsimp only at hstep
    split at hstep
    · cases hstep
    · cases hstep
    · next p hpool =>
      obtain ⟨roots, hroots, heq⟩ := map_eq_ok_iff.mp hstep
      cases heq
      obtain ⟨hconns, hholding⟩ := ht.poolStep hspares hpool
      exact ⟨hconns, ht.table.refer (referred_of_foldlM hroots) hholding⟩

theorem RefsHold.unmapped (ht : t.RefsHold) {w : ℕ} (hgiven : w ∈ t.vhosts.unrefs) (hfree : t.pool.holding w = 0) :
    t.vhosts.Unmapped w := by
  have hroot := List.getElem?_eq_getElem (ht.table.unrefs w hgiven)
  have hcount := ht.table.counts w _ hroot
  have hpos : 0 < t.vhosts.unrefs.count w := List.count_pos_iff.mpr hgiven
  exact ⟨_, hroot, by omega⟩

theorem RefsHold.holding_eq_zero (ht : t.RefsHold) {w : ℕ}
    (hgone : ∀ q ∈ t.pool.peers, .webrootRef w ∈ q.conn.log → q.destroyed = true) : t.pool.holding w = 0 := by
  refine List.countP_eq_zero.mpr fun q hq hheld => ?_
  have hcount := (ht.conns q hq).count w
  rw [if_pos hheld] at hcount
  have hused := hgone q hq (List.count_pos_iff.mp (by omega))
  rw [hused] at hheld
  cases hheld

/-- In every run in which no callback takes a reference to a webroot while the connection still points to
one, the references that connections have taken and not dropped are those of the connections that point
to the webroot and were not destroyed; so one that the table has given back is unmapped when every
connection that used it was destroyed. -/
theorem webroot_refs_balance {evs : List SiteEvent}
    (hrun : GuardedRun (Steps r fio) (Spares r fio) empty evs t) (w : ℕ) :
    t.pool.taken w = t.pool.dropped w + t.pool.holding w ∧
      (w ∈ t.vhosts.unrefs → (∀ q ∈ t.pool.peers, .webrootRef w ∈ q.conn.log → q.destroyed = true) →
        t.vhosts.Unmapped w) := by
  have ht : t.RefsHold := hrun.invariant (I := fun _ t => t.RefsHold) (fun _ _ _ _ ht => ht.step) .empty
  exact ⟨taken_eq ht.conns w, fun hgiven hgone => ht.unmapped hgiven (ht.holding_eq_zero hgone)⟩

/-- A webroot is opened for every name, a connection is accepted, and the table gives the webroot back after
what happens to the connection. -/
def visit (es : List HttpConn.Happening) : List SiteEvent :=
  [.vhost (.add defaultName false (some 0) enoughAllocs), .pool .accept] ++ es.map (fun e => .pool (.conn 0 e)) ++
    [.pool (.dtor 0), .vhost (.del defaultName false)]

def sends (n : ℕ) (preads : List PreadResult) : HttpConn.Happening := .write ⟨.sent n, preads, .submitted⟩

def fileVisit : List SiteEvent :=
  visit [readOf (.bytes plainHead), sends 2048 [], sends 2 [.read 0], readOf .error]

/-- A step, if it goes well. -/
def next (r : Webroots) (fio : Fio) (t : Site) (ev : SiteEvent) : Option Site :=
  match t.step r fio ev with
  | .ok o => o
  | .error _ => none

theorem steps_of_next {t t' : Site} {ev : SiteEvent} (hnext : t.next r fio ev = some t') : t.Steps r fio ev t' := by
  unfold next at hnext
  unfold Steps
  split at hnext
  · next o ho => rw [ho, hnext]
  · cases hnext

/-- No connection points to a webroot when it reads. -/
def Unbound (t : Site) : SiteEvent → Prop
  | .pool (.conn i (.read _)) => ∀ q ∈ t.pool.peers[i]?, q.conn.hWebroot = none
  | _ => True

instance (t : Site) (ev : SiteEvent) : Decidable (t.Unbound ev) :=
  match ev with
  | .pool (.conn i (.read _)) => inferInstanceAs (Decidable (∀ q ∈ t.pool.peers[i]?, q.conn.hWebroot = none))
  | .pool (.conn _ (.ready _)) | .pool (.conn _ (.write _)) | .pool (.conn _ .error) | .pool (.conn _ (.completion _))
  | .pool .accept | .pool (.dtor _) | .vhost _ => isTrue trivial

theorem spares_of_unbound {ev : SiteEvent} (hunbound : t.Unbound ev) : t.Spares r fio ev := by
  unfold Spares
  split
  · exact fun q hq => Or.inl (hunbound q hq)
  · trivial

theorem webroot_refs_balance_file : ∃ t, GuardedRun (Steps taggedServer.roots .sync) (Spares taggedServer.roots .sync)
    empty fileVisit t ∧ t.pool.taken 0 = 1 ∧ t.pool.dropped 0 = 1 ∧ t.pool.holding 0 = 0 ∧ t.vhosts.Unmapped 0 := by
  have hall : (play (next taggedServer.roots .sync) Unbound empty fileVisit).any (fun t => t.pool.taken 0 = 1 ∧
      t.pool.dropped 0 = 1 ∧ 0 ∈ t.vhosts.unrefs ∧ t.pool.peers.all fun q => q.destroyed) = true := by
    decide +kernel
  obtain ⟨t, hplay, hend⟩ := (Option.any_eq_true _ _).mp hall
  obtain ⟨htaken, hdropped, hgiven, hgone⟩ := of_decide_eq_true hend
  have hrun : GuardedRun (Steps taggedServer.roots .sync) (Spares taggedServer.roots .sync) empty fileVisit t :=
    (guardedRun_of_play (fun _ _ _ => steps_of_next) hplay).mono fun _ _ => spares_of_unbound
  obtain ⟨hbalance, hunmapped⟩ := webroot_refs_balance hrun 0
  refine ⟨t, hrun, htaken, hdropped, by omega, hunmapped hgiven fun q hq _ => ?_⟩
  exact List.all_eq_true.mp hgone q hq

def emptyFileRoots : Webroots :=
  ⟨fun _ => { taggedServer.roots.index 0 with rFile := [⟨0, 0, 0, 10, 5000000, zeroDigest, length_zeroDigest⟩] }, fun _ => []⟩

def emptyFileVisit : List SiteEvent :=
  visit [readOf (.bytes plainHead), sends 2048 [], readOf (.bytes plainHead), sends 2048 [], readOf .error]

/-- Of the two references that are taken for an empty file only one is dropped, and so the webroot stays for ever. -/
theorem webroot_ref_lost : ∃ t, Run (Steps emptyFileRoots .sync) empty emptyFileVisit t ∧ t.pool.taken 0 = 2 ∧
    t.pool.dropped 0 = 1 ∧ t.pool.holding 0 = 0 ∧ 0 ∈ t.vhosts.unrefs ∧
    (∀ q ∈ t.pool.peers, q.destroyed = true) ∧ t.vhosts.roots = [⟨0, 1⟩] := by
  have hall : (play (next emptyFileRoots .sync) (fun _ _ => True) empty emptyFileVisit).any (fun t =>
      t.pool.taken 0 = 2 ∧ t.pool.dropped 0 = 1 ∧ t.pool.holding 0 = 0 ∧ 0 ∈ t.vhosts.unrefs ∧
      (t.pool.peers.all fun q => q.destroyed) ∧ t.vhosts.roots = [⟨0, 1⟩]) = true := by
    decide +kernel
  obtain ⟨t, hplay, hend⟩ := (Option.any_eq_true _ _).mp hall
  obtain ⟨htaken, hdropped, hholding, hgiven, hgone, hroots⟩ := of_decide_eq_true hend
  exact ⟨t, guardedRun_of_play (fun _ _ _ => steps_of_next) hplay, htaken, hdropped, hholding, hgiven,
    List.all_eq_true.mp hgone, hroots⟩

end Site
end Ashttpd
