import Ashttpd.ClientReads
import Ashttpd.ServedTrees

/-!
# A tree as a client sees it

What a client reads from a connection on which it asks for paths of a tree is, question by question, what the
tree has at these paths, as far as the responses have come.
-/
namespace Ashttpd

theorem lf_untilNul {x : Bytes} (h : LF ∉ x) : LF ∉ untilNul x :=
  fun hmem => h ((List.takeWhile_prefix _).subset hmem)

namespace Mkroot

variable {s : Server} {k : Kernel} {base : Bytes} {magic : Bytes → Bytes} {tree : Tree} {host sockname wire u : Bytes}
  {q : Query} {before : UInt8} {w : ℕ}

/-- The text that a tree has for a URI, with its type: a file, or the page or the listing of a directory. -/
inductive TextAt (k : Kernel) (base : Bytes) (magic : Bytes → Bytes) (tree : Tree) (u : Bytes) : Bytes → Bytes → Prop
  | file {ps : List Bytes} {a : Attrs} {text : Bytes} (hu : u = uriText (ps, false)) (h : tree.walk ps = some (.file a))
      (hne : ps ≠ []) (hread : k.contents (base ++ pathOf ps) = some text) :
      TextAt k base magic tree u (magic (base ++ pathOf ps)) (text.take a.size)
  | page {ps : List Bytes} {a b : Attrs} {es : DirEntries Attrs} {page text : Bytes} (hu : u = uriText (ps, true))
      (h : tree.walk ps = some (.dir a es)) (hpage : pageOf es indexPages = some (page, b))
      (hread : k.contents (base ++ pathOf (ps ++ [page])) = some text) :
      TextAt k base magic tree u (magic (base ++ pathOf (ps ++ [page]))) (text.take b.size)
  | listing {ps : List Bytes} {a : Attrs} {es : DirEntries Attrs} (hu : u = uriText (ps, true))
      (h : tree.walk ps = some (.dir a es)) (hpage : pageOf es indexPages = none) :
      TextAt k base magic tree u (ascii "text/html") (listing (pathOf ps ++ [SLASH]) es)

/-- What a client is to see that asks for something in a tree. -/
inductive Shows (k : Kernel) (base : Bytes) (magic : Bytes → Bytes) (tree : Tree) (host : Bytes) (q : Query) : View → Prop
  | text {type text : Bytes} (h : TextAt k base magic tree q.uri type text) (hnew : ¬ HasText q.tag text) :
      Shows k base magic tree host q ⟨HTTP_FOUND, type, if q.bare then [] else text⟩
  | known {type text : Bytes} (h : TextAt k base magic tree q.uri type text) (hold : HasText q.tag text) :
      Shows k base magic tree host q ⟨HTTP_NOT_MODIFIED, type, []⟩
  | moved {ps : List Bytes} {a : Attrs} {es : DirEntries Attrs} (hu : q.uri = uriText (ps, false))
      (h : tree.walk ps = some (.dir a es)) (hne : ps ≠ []) :
      Shows k base magic tree host q ⟨HTTP_MOVED_PERMANENTLY, ascii "text/html", movedPage host (pathOf ps ++ [SLASH])⟩
  | missing (h : ¬ IsUri tree q.uri) : Shows k base magic tree host q ⟨404, ascii "text/html", missingPage⟩

/-- A question with an answer that a client can read: no line feed in the path, a length that fits `int`, and
HEAD only for what has a text. -/
structure Legible (k : Kernel) (base : Bytes) (magic : Bytes → Bytes) (tree : Tree) (q : Query) : Prop where
  line : LF ∉ q.uri
  fits : ∀ type text, TextAt k base magic tree q.uri type text → IsValue type ∧ text.length ≤ INT_MAX
  bare : q.bare = true → ∃ type text, TextAt k base magic tree q.uri type text

/-- The response for a text is read as the text. -/
theorem fileWire_reads {type text : Bytes} (mtime : ℤ) (htype : IsValue type) (hfits : text.length ≤ INT_MAX) :
    ReadsAs readResponse q.bare (fileWire type mtime text q) ⟨if HasText q.tag text then HTTP_NOT_MODIFIED else HTTP_FOUND,
      type, if q.bare ∨ HasText q.tag text then [] else text⟩ := by
  have hmax : INT_MAX < 2 ^ 32 := by decide
  have htext : (headerHead (fileHead type mtime text q.tag) htype).text = headerText (fileHead type mtime text q.tag) :=
    headerHead_text _ htype
  obtain ⟨body, hbody⟩ : ∃ body, body = if q.bare ∨ HasText q.tag text then [] else text := ⟨_, rfl⟩
  unfold fileWire
  rw [← htext, ← hbody]
  refine EncodedHead.reads (v := ⟨_, type, body⟩) ?_
  intro r htells
  have hcode : r.code.toNat = if HasText q.tag text then HTTP_NOT_MODIFIED else HTTP_FOUND := by
    rw [htells.code]
    refine htypeCode_codeText ?_
    unfold fileHead
    dsimp only
    split <;> decide
  have hlen : r.contentLen = text.length := by
    have hvalue : (headerHead (fileHead type mtime text q.tag) htype).value (ascii "Content-Length") =
        some (decimal text.length) := rfl
    rw [htells.length, hvalue]
    simp only [Option.map_some, Option.getD_some, htypeInt_decimal, Nat.mod_eq_of_lt (Nat.lt_of_le_of_lt hfits hmax),
      hfits, if_true, Int.toNat_natCast]
    split
    · rfl
    · omega
  refine ⟨hcode, htells.type, ?_⟩
  have hsame : HTTP_FOUND ≠ HTTP_NOT_MODIFIED := by decide
  show bodyLength q.bare r = body.length
  unfold bodyLength
  rw [hcode, hlen, hbody]
  by_cases hold : HasText q.tag text
  · simp [hold]
  · by_cases hbare : q.bare = true
    · simp [hbare]
    · simp [hold, hbare, hsame]

/-- The place of a directory is read. -/
theorem redirectText_reads {loc : Bytes} (hhost : LF ∉ host) (hloc : LF ∉ loc) :
    ReadsAs readResponse false (Ashttpd.redirectText host loc)
      ⟨HTTP_MOVED_PERMANENTLY, ascii "text/html", movedPage host loc⟩ := by
  have hplace : LF ∉ untilNul host ++ untilNul loc := by
    rw [List.mem_append, not_or]
    exact ⟨lf_untilNul hhost, lf_untilNul hloc⟩
  rw [redirectText_moved host loc hplace]
  refine EncodedHead.reads (v := ⟨HTTP_MOVED_PERMANENTLY, ascii "text/html", movedPage host loc⟩) ?_
  intro r htells
  have hcode : r.code.toNat = HTTP_MOVED_PERMANENTLY := by
    rw [htells.code]
    exact (by decide : (htypeCode ⟨none, ascii "301"⟩).toNat = 301)
  have hlen : r.contentLen = 87 := by
    have hvalue : (movedHead (untilNul host ++ untilNul loc) hplace).value (ascii "Content-Length") =
        some (ascii "87") := rfl
    rw [htells.length, hvalue]
    decide
  refine ⟨hcode, htells.type, ?_⟩
  show bodyLength false r = (movedPage host loc).length
  rw [length_movedPage, bodyLength, hcode, hlen]
  decide

/-- That there is nothing is read. -/
theorem resp404_reads : ReadsAs readResponse false resp404 ⟨404, ascii "text/html", missingPage⟩ := by
  rw [resp404_eq]
  refine EncodedHead.reads (v := ⟨404, ascii "text/html", missingPage⟩) ?_
  intro r htells
  have hcode : r.code.toNat = 404 := by
    rw [htells.code]
    decide
  have hlen : r.contentLen = 83 := by
    rw [htells.length]
    decide
  refine ⟨hcode, htells.type, ?_⟩
  show bodyLength false r = missingPage.length
  rw [bodyLength, hcode, hlen]
  decide

theorem lf_pathOf {ps : List Bytes} {slash : Bool} (hu : u = uriText (ps, slash)) (hlf : LF ∉ u) :
    LF ∉ pathOf ps ++ [SLASH] := by
  rw [hu, uriText, List.mem_append, not_or] at hlf
  rw [List.mem_append, not_or]
  exact ⟨hlf.1, by decide⟩

section tree

variable {a : Attrs} {es : DirEntries Attrs}

theorem TextAt.link {type text : Bytes} (h : Scannable a es) (ht : TextAt k base magic (.dir a es) u type text) :
    ∃ x ∈ treeLinks es, u = uriText x ∧ ∀ b ds, (DirNode.dir a es).walk x.1 = some (.dir b ds) → x.2 = true := by
  cases ht with
  | @file ps b text hu hwalk hne hread =>
    refine ⟨(ps, false), h.mem_treeLinks.mpr ⟨_, hwalk, fun _ => hne, by simp⟩, hu, ?_⟩
    intro b ds hdir
    rw [hwalk] at hdir
    cases hdir
  | @page ps b c ds page text hu hwalk =>
    exact ⟨(ps, true), h.mem_treeLinks.mpr ⟨_, hwalk, by simp, fun _ => trivial⟩, hu, fun _ _ _ => rfl⟩
  | @listing ps b ds hu hwalk =>
    exact ⟨(ps, true), h.mem_treeLinks.mpr ⟨_, hwalk, by simp, fun _ => trivial⟩, hu, fun _ _ _ => rfl⟩

/-- A client reads the response to a question as what the tree has. -/
theorem Response.reads (h : Scannable a es) (hhost : LF ∉ host) (hl : Legible k base magic (.dir a es) q)
    (hr : Response k base magic (.dir a es) host q wire) :
    ∃ v, Shows k base magic (.dir a es) host q v ∧ ReadsAs readResponse q.bare wire v := by
  have htext : ∀ type text mtime, TextAt k base magic (.dir a es) q.uri type text →
      ∃ v, Shows k base magic (.dir a es) host q v ∧ ReadsAs readResponse q.bare (fileWire type mtime text q) v := by
    intro type text mtime ht
    obtain ⟨htype, hfits⟩ := hl.fits type text ht
    refine ⟨_, ?_, fileWire_reads mtime htype hfits⟩
    by_cases hold : HasText q.tag text
    · rw [if_pos hold, if_pos (Or.inr hold)]
      exact .known ht hold
    · rw [if_neg hold]
      simp only [hold, or_false]
      exact .text ht hold
  cases hr with
  | @redirect ps b ds hq hwalk hne hfits =>
    have hbare : q.bare = false := by
      by_contra hbare
      obtain ⟨type, text, ht⟩ := hl.bare (Bool.not_eq_false _ ▸ hbare)
      obtain ⟨x, hx, hux, hdir⟩ := ht.link h
      have hps : (ps, false) ∈ treeLinks es := h.mem_treeLinks.mpr ⟨_, hwalk, fun _ => hne, by simp⟩
      obtain rfl : (ps, false) = x := uriText_injective (h.names_of_mem hps) (h.names_of_mem hx) (hq.symm.trans hux)
      cases hdir _ _ hwalk
    rw [hbare]
    exact ⟨_, .moved hq hwalk hne, redirectText_reads hhost (lf_pathOf hq hl.line)⟩
  | file hq hwalk hne hread hfits => exact htext _ _ _ (.file hq hwalk hne hread)
  | page hq hwalk hpage hread hfits => exact htext _ _ _ (.page hq hwalk hpage hread)
  | listing hq hwalk hpage hfits => exact htext _ _ _ (.listing hq hwalk hpage)
  | missing hnot =>
    have hbare : q.bare = false := by
      by_contra hbare
      obtain ⟨type, text, ht⟩ := hl.bare (Bool.not_eq_false _ ▸ hbare)
      obtain ⟨x, hx, hux, -⟩ := ht.link h
      exact hnot (h.mem_uris.mp (List.mem_map.mpr ⟨x, hx, hux.symm⟩))
    rw [hbare]
    exact ⟨_, .missing hnot, resp404_reads⟩

/-- A request, the question it puts and what is seen. -/
structure Told where
  head : ReqHead
  query : Query
  view : View

end tree

section built

variable {a : Attrs} {es : DirEntries Attrs} {depth : ℕ} {buf : Mem} {answers : List WriteAnswer} {root : Webroot}
  {p : Prepared} {image : Bytes} {pool : ConnPool} {events : List PoolEvent}

end built

end Mkroot

end Ashttpd
