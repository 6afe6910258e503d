import Ashttpd.CallbackFrames

/-!
# References of connections to webroots

A connection has taken one reference more than it has dropped, to the webroot that it points to, and as
many to any other. Every callback keeps this, but for a file that is to be sent while there is a webroot left
from a file before.
-/
namespace Ashttpd

variable {h h₀ : HttpConn}

def RefBalanced (h : HttpConn) : Prop :=
  ∀ w, h.log.count (.webrootRef w) = h.log.count (.webrootUnref w) + if h.hWebroot = some w then 1 else 0

/-- What a connection that was `h₀` is like later. -/
structure Retained (h₀ h : HttpConn) : Prop where
  balanced : RefBalanced h
  log : h₀.log <+: h.log

theorem Retained.logged (hk : Retained h₀ h) {new : List Event} (hnew : Refless new) : Retained h₀ (h.logged new) := by
  refine ⟨fun w => ?_, hk.log.trans (List.prefix_append _ _)⟩
  obtain ⟨href, hunref⟩ := hnew w
  rw [HttpConn.logged_log, List.count_append, List.count_append, List.count_eq_zero.mpr href,
    List.count_eq_zero.mpr hunref]
  exact hk.balanced w

/-- The webroot is given back together with the reference to it. -/
theorem Retained.dropWebroot (hk : Retained h₀ h) : Retained h₀ h.dropWebroot := by
  obtain ⟨heq, -⟩ | ⟨w, hw, heq⟩ := dropWebroot_cases h
  · rw [heq]
    exact hk
  · rw [heq]
    refine ⟨fun w' => ?_, hk.log.trans (List.prefix_append _ _)⟩
    have hbal := hk.balanced w'
    rw [hw] at hbal
    rw [HttpConn.logged_log, HttpConn.withWebroot_log, List.count_append, List.count_append, hbal]
    by_cases heq' : w = w'
    · simp [heq', HttpConn.withWebroot]
    · have hne : w' ≠ w := fun he => heq' he.symm
      simp [heq', HttpConn.withWebroot]

theorem retained_steady (h₀ : HttpConn) : Steady (Retained h₀) where
  nbio _ hk := ⟨hk.balanced, hk.log⟩
  state _ hk := ⟨hk.balanced, hk.log⟩
  req _ _ _ hk := ⟨hk.balanced, hk.log⟩
  res _ hk := ⟨hk.balanced, hk.log⟩
  priv _ hk := ⟨hk.balanced, hk.log⟩
  data _ _ hk := ⟨hk.balanced, hk.log⟩
  aio _ hk := ⟨hk.balanced, hk.log⟩
  close _ hk := ⟨hk.balanced, hk.log⟩
  logged hnew hk := hk.logged hnew
  dropWebroot hk := hk.dropWebroot

theorem Retained.takeRoot (hk : Retained h₀ h) (hfree : h.hWebroot = none) (w : ℕ) :
    Retained h₀ ((h.withWebroot (some w)).logged [.webrootRef w]) := by
  refine ⟨fun w' => ?_, hk.log.trans (List.prefix_append _ _)⟩
  have hbal := hk.balanced w'
  rw [hfree, if_neg nofun] at hbal
  rw [HttpConn.logged_log, HttpConn.withWebroot_log, List.count_append, List.count_append, hbal]
  by_cases heq : w = w'
  · simp [heq, HttpConn.withWebroot]
  · have hne : w' ≠ w := fun he => heq he.symm
    simp [heq, HttpConn.withWebroot]

end Ashttpd
