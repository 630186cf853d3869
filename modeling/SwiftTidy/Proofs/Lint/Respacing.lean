import SwiftTidy.Proofs.Lint.Building
import SwiftTidy.Proofs.Lint.Spacing

/-!
# Edits of the spacing in 32 bits

An edit of the spacing puts at most one byte behind a token, in place of what was there
(`Token.Respaced`).  So however many edits were made below a place, the element there has grown by
at most one byte for each of its leaves, and the edits go through with every node built in 32 bits
if these hold that much (`SpacingEdit.checks_buildFixer`).
-/

namespace SwiftTidy

/-- A relation that holds of the members of two lists one by one holds after one more change. -/
theorem forall₂_set {α : Type} {R : α → α → Prop} {xs ys : List α} {i : Nat} {y z : α}
    (h : List.Forall₂ R xs ys) (hy : ys[i]? = some y) (hz : ∀ x, R x y → R x z) :
    List.Forall₂ R xs (ys.set i z) := by
  induction h generalizing i with
  | nil => cases hy
  | cons hhead htail ih =>
    cases i with
    | zero =>
      cases hy
      exact .cons (hz _ hhead) htail
    | succ i => exact .cons hhead (ih hy)

/-- A token with its trailing trivia as it was, dropped or exchanged for at most one byte. -/
structure Token.Respaced (t u : Token) : Prop where
  leading : u.leading = t.leading
  text : u.text = t.text
  trailing : u.trailing.len ≤ max t.trailing.len 1

namespace Token.Respaced

theorem refl (t : Token) : Respaced t t := ⟨rfl, rfl, Nat.le_max_left _ _⟩

theorem trans {t u v : Token} (h : Respaced t u) (h' : Respaced u v) : Respaced t v where
  leading := h'.leading.trans h.leading
  text := h'.text.trans h.text
  trailing := by
    have hu := h.trailing
    have hv := h'.trailing
    omega

theorem fullLen_le {t u : Token} (h : Respaced t u) : u.fullLen ≤ t.fullLen + 1 := by
  have htrailing := h.trailing
  rw [fullLen, fullLen, len, len, h.leading, h.text]
  omega

end Token.Respaced

/-- Trivia of at most one byte may be put behind every token. -/
theorem SpacingEdit.respaced_setTrailing {trivia : Option Trivia} (h : ∀ t ∈ trivia, t.len ≤ 1)
    (t : Token) : t.Respaced (setTrailing trivia t) := by
  cases trivia with
  | none => exact .refl t
  | some trivia =>
    have hlen := h trivia rfl
    exact ⟨rfl, rfl, Nat.le_trans hlen (Nat.le_max_right _ _)⟩

namespace Element

variable {e e' e'' : Element} {es es' : List Element}

/-- An element with some of its tokens respaced. -/
def Respaced (e e' : Element) : Prop := List.Forall₂ Token.Respaced e.leaves e'.leaves

theorem Respaced.refl (e : Element) : Respaced e e := List.forall₂_same.mpr fun t _ => .refl t

theorem Respaced.trans (h : Respaced e e') (h' : Respaced e' e'') : Respaced e e'' :=
  forall₂_trans h h' fun _ _ _ => .trans

theorem respaced_leavesAll (h : List.Forall₂ Respaced es es') :
    List.Forall₂ Token.Respaced (leavesAll es) (leavesAll es') := by
  induction h with
  | nil => rw [leavesAll_nil]; exact .nil
  | cons hhead _ ih =>
    rw [leavesAll_cons, leavesAll_cons]
    exact List.rel_append hhead ih

theorem Respaced.node (k : SyntaxKind) (h : List.Forall₂ Respaced es es') :
    Respaced (.node k es) (.node k es') := by
  rw [Respaced, leaves_node, leaves_node]
  exact respaced_leavesAll h

theorem Respaced.mapFirstToken {f : Token → Token} (hf : ∀ t : Token, t.Respaced (f t))
    (e : Element) : Respaced e (e.mapFirstToken f) := by
  cases hleaves : e.leaves with
  | nil => rw [mapFirstToken_of_leaves_eq_nil hleaves]; exact .refl e
  | cons t ts =>
    rw [Respaced, leaves_mapFirstToken hleaves, hleaves]
    exact .cons (hf t) (List.forall₂_same.mpr fun u _ => .refl u)

theorem Respaced.mapLastToken {f : Token → Token} (hf : ∀ t : Token, t.Respaced (f t))
    (e : Element) : Respaced e (e.mapLastToken f) := by
  rcases List.eq_nil_or_concat e.leaves with hleaves | ⟨ts, t, hleaves⟩
  · rw [mapLastToken_of_leaves_eq_nil hleaves]
    exact .refl e
  · rw [List.concat_eq_append] at hleaves
    rw [Respaced, leaves_mapLastToken hleaves, hleaves]
    exact List.rel_append (List.forall₂_same.mpr fun u _ => .refl u) (.cons (hf t) .nil)

theorem fullLenAll_le_of_respaced {ts us : List Token} (h : List.Forall₂ Token.Respaced ts us) :
    Token.fullLenAll us ≤ Token.fullLenAll ts + ts.length := by
  induction h with
  | nil => exact Nat.le_refl _
  | cons hhead _ ih =>
    have hlen := hhead.fullLen_le
    rw [Token.fullLenAll_cons, Token.fullLenAll_cons, List.length_cons]
    omega

/-- Respacing adds at most one byte for each leaf. -/
theorem fullLenAll_le (h : List.Forall₂ Respaced es es') :
    fullLenAll es' ≤ fullLenAll es + (leavesAll es).length := by
  rw [fullLenAll_eq, fullLenAll_eq]
  exact fullLenAll_le_of_respaced (respaced_leavesAll h)

end Element

/-! ### One edit -/

namespace TokenPair

/-- Edits the token at `right` and the token in front of it below the place `c`, whose element has
become `current`, and builds all nodes above them. -/
def buildEdit (c : Cursor) (current : Element) (right : Cursor)
    (editLeft editRight : Token → Token) : Except Fault (Option Element) := do
  match (right :: right.ancestors).find? fun x => x.parent?.any (·.samePlace c) with
  | none => return none
  | some x =>
    let es := current.children
    match ← lastWithLeaf es x.index with
    | none => return none
    | some i =>
      match es[i]?, es[x.index]? with
      | some l, some r =>
        let l ← l.buildMapLast editLeft
        let r ← r.buildMapFirst editRight
        return some (← Element.build current.kind ((es.set i l).set x.index r))
      | _, _ => .error .missingChild

variable {c right : Cursor} {k : SyntaxKind} {es fs : List Element} {f g : Token → Token}

/-- An edit that the plain function makes is made with every node built, and it respaces. -/
theorem buildEdit_eq {r : Option Element} (hes : List.Forall₂ Element.Respaced es fs)
    (hlen : Element.fullLenAll es + (Element.leavesAll es).length < Offset.limit)
    (hf : ∀ t : Token, t.Respaced (f t)) (hg : ∀ t : Token, t.Respaced (g t))
    (h : edit c (.node k fs) right f g = .ok r) :
    buildEdit c (.node k fs) right f g = .ok r ∧
      ∀ e ∈ r, Element.Respaced (.node k es) e := by
  rw [edit] at h
  rw [buildEdit]
  cases hfind : (right :: right.ancestors).find? fun x => x.parent?.any (·.samePlace c) with
  | none =>
    rw [hfind] at h
    cases h
    exact ⟨rfl, fun e he => by cases he⟩
  | some x =>
    rw [hfind] at h
    obtain ⟨last, hlast, h⟩ := Except.bind_eq_ok.mp h
    have hlast : lastWithLeaf fs x.index = .ok last := hlast
    simp only [Element.children, Element.kind, hlast, bind, Except.bind]
    cases last with
    | none =>
      cases h
      exact ⟨rfl, fun e he => by cases he⟩
    | some i =>
      simp only [Element.children, Element.kind] at h
      split at h
      · next l m hl hm =>
        cases h
        -- two different children are set, and each set is shorter than the bound allows
        have hi : i ≠ x.index := Nat.ne_of_lt (lt_of_lastWithLeaf hlast)
        have hm' : (fs.set i (l.mapLastToken f))[x.index]? = some m := by
          rwa [List.getElem?_set_ne hi]
        have hone : List.Forall₂ Element.Respaced es (fs.set i (l.mapLastToken f)) :=
          forall₂_set hes hl fun e he => he.trans (.mapLastToken hf l)
        have hboth : List.Forall₂ Element.Respaced es
            ((fs.set i (l.mapLastToken f)).set x.index (m.mapFirstToken g)) :=
          forall₂_set hone hm' fun e he => he.trans (.mapFirstToken hg m)
        have hle := Element.fullLenAll_le hes
        have honeLe := Element.fullLenAll_le hone
        have hbothLe := Element.fullLenAll_le hboth
        have honeLen := Element.fullLenAll_set hl (l.mapLastToken f)
        have hbothLen := Element.fullLenAll_set hm' (m.mapFirstToken g)
        have hlLen := Element.fullLen_le_of_mem (List.mem_of_getElem? hl)
        have hmLen := Element.fullLen_le_of_mem (List.mem_of_getElem? hm')
        have hleft : l.buildMapLast f = .ok (l.mapLastToken f) :=
          Element.buildMapLast_eq_ok (by omega)
        have hright : m.buildMapFirst g = .ok (m.mapFirstToken g) :=
          Element.buildMapFirst_eq_ok (by omega)
        have hnode := Element.build_eq_ok k (Nat.lt_of_le_of_lt hbothLe hlen)
        simp only [hl, hm, hleft, hright, hnode]
        refine ⟨rfl, fun e he => ?_⟩
        cases he
        exact .node k hboth
      · cases h

end TokenPair

/-! ### All edits -/

namespace SpacingEdit

/-- Makes every edit where its tokens meet, and builds all nodes above them. -/
def buildFixer (edits : List SpacingEdit) : Fixer Unit :=
  let byPath := located edits
  { node := fun c current _ => do
      match byPath.lookup c.path with
      | none => return (none, ())
      | some e =>
        let replacement ← TokenPair.buildEdit c current e.token (setTrailing e.before)
          (setTrailing e.after)
        return (replacement.map fun r => ⟨r, e.position, [], none⟩, ()) }

/-- An edit that puts at most one byte on each side. -/
structure IsNarrow (e : SpacingEdit) : Prop where
  before : ∀ t ∈ e.before, t.len ≤ 1
  after : ∀ t ∈ e.after, t.len ≤ 1

variable {edits : List SpacingEdit} {disabled : DisabledRegions}
  {Fits : Element → Element → Prop} {c : Cursor}

/-- **Edits in 32 bits**: narrow edits go through at every place with room for one more byte for
each leaf. -/
theorem checks_buildFixer (hedits : ∀ e ∈ edits, e.IsNarrow)
    (hlen : c.element.fullLen + c.element.leaves.length < Offset.limit) :
    Fixer.Checks (buildFixer edits) (fixer edits) disabled Fits Element.Respaced c where
  token t f _ hf := by
    cases hf
    exact ⟨rfl, .refl _⟩
  visit := rfl
  node k es es' f hnode _ hes hf := by
    rw [hnode, Element.fullLen, Element.leaves_node] at hlen
    have hcurrent : Element.Respaced (.node k es) (.node k es') := .node k hes
    refine ⟨Nat.lt_of_le_of_lt (Element.fullLenAll_le hes) hlen, ?_⟩
    cases hlookup : (located edits).lookup c.path with
    | none =>
      simp only [fixer, hlookup] at hf
      cases hf
      refine ⟨?_, hcurrent⟩
      simp only [buildFixer, hlookup]
      rfl
    | some e =>
      simp only [fixer, hlookup] at hf
      obtain ⟨r, hr, hf⟩ := Except.bind_eq_ok.mp hf
      cases hf
      have hnarrow := hedits e (mem_located (mem_located_of_lookup hlookup)).1
      obtain ⟨hbuild, hkeeps⟩ := TokenPair.buildEdit_eq hes hlen
        (respaced_setTrailing hnarrow.before) (respaced_setTrailing hnarrow.after) hr
      refine ⟨?_, Fixer.accept_of hcurrent fun f hf => ?_⟩
      · simp only [buildFixer, hlookup, hbuild]
        rfl
      · obtain ⟨r', hr', rfl⟩ := Option.map_eq_some_iff.mp hf
        exact hkeeps r' hr'

end SpacingEdit

end SwiftTidy
