import Ashttpd.ConnPool
import Ashttpd.Vhosts

/-!
# Connections and the webroots they are served from

The table of virtual hosts and all connections share the webroots: the table has the reference that comes
with opening one, and a connection takes and drops references as its log tells.
-/
namespace Ashttpd

/-- The table of virtual hosts, with the webroots that were opened, and the connections. -/
structure Site where
  vhosts : Vhosts
  pool : ConnPool

inductive SiteEvent where
  | vhost (e : VhostEvent)
  | pool (ev : PoolEvent)

/-- `webroot_ref` and `webroot_unref`, called for a connection. -/
def refer (roots : List OpenRoot) : Event → Except Fault (List OpenRoot)
  | .webrootRef w =>
    match roots[w]? with
    | none => .error .undefined
    | some root =>
      if root.rRef = 0 then .error .undefined else .ok (roots.set w { root with rRef := root.rRef + 1 })
  | .webrootUnref w =>
    match roots[w]? with
    | none => .error .undefined
    | some root =>
      if root.rRef = 0 then .error .undefined else .ok (roots.set w { root with rRef := root.rRef - 1 })
  | .received _ | .sent _ _ | .answered _ | .complete | .closed | .freed _ => .ok roots

/-- What the connection that a step is about adds to its log. -/
def ConnPool.news (p p' : ConnPool) : PoolEvent → List Event
  | .accept => []
  | .conn i _ | .dtor i =>
    match p.peers[i]?, p'.peers[i]? with
    | some q, some q' => q'.conn.log.drop q.conn.log.length
    | _, _ => []

namespace Site

def empty : Site := ⟨.empty, .empty⟩

variable (r : Webroots) (fio : Fio) (t : Site)

/-- The server as the connections see it, where `r` has the contents of the webroots. -/
def server : Server where
  roots := r
  vhostsLookup host := if h : 0 ∉ host then t.vhosts.vhostsLookup ⟨host, h⟩ else none
  fio := fio

def vhostStep (e : VhostEvent) : Except Fault Vhosts :=
  match e with
  | .add name isdir file a => t.vhosts.vhostAdd name isdir file a
  | .del name isdir => t.vhosts.vhostDel name isdir

/-- A step of the table, or of a connection together with the references that it takes and drops. -/
def step : SiteEvent → Except Fault (Option Site)
  | .vhost e => (t.vhostStep e).map fun v => some { t with vhosts := v }
  | .pool ev =>
    match t.pool.step (t.server r fio) ev with
    | .error f => .error f
    | .ok none => .ok none
    | .ok (some p) =>
      ((t.pool.news p ev).foldlM refer t.vhosts.roots).map fun roots =>
        some ⟨{ t.vhosts with roots := roots }, p⟩

def Steps (ev : SiteEvent) (t' : Site) : Prop := t.step r fio ev = .ok (some t')

end Site

namespace ConnPool

def taken (p : ConnPool) (w : ℕ) : ℕ := (p.peers.map fun q => q.conn.log.count (.webrootRef w)).sum

def dropped (p : ConnPool) (w : ℕ) : ℕ := (p.peers.map fun q => q.conn.log.count (.webrootUnref w)).sum

def holding (p : ConnPool) (w : ℕ) : ℕ := p.peers.countP fun q => !q.destroyed && q.conn.hWebroot == some w

end ConnPool
end Ashttpd
