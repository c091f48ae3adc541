import LiveBinding.Interpolation.Pieces
import LiveBinding.Proofs.Interpolation.Grammar

/-!
# What a template stands for

A template written from pieces is read back as what its pieces stand for. The text of the pieces is
followed from left to right, with whatever stands behind: no placeholder starts in a literal, and a
placeholder ends where its key ends. The blanks around a key are in the path that is read, and gone
from its only segment.

## Key definitions

- `Piece.IsKey`: a key that a placeholder can name
- `Piece.Fits`: a piece over a number of keys

## Key results

- `Segment.placeholder?_written`: reading back a placeholder, whatever stands behind it
- `Piece.IsKey.segments_pad`: a key with blanks around it is the only segment
- `Piece.render_source`: rendering a written template gives what it stands for
-/

namespace LiveBinding

namespace Segment

/-- No placeholder starts at any other character than an opening brace. -/
theorem placeholder?_cons {c : Char} (h : c ≠ '\x7b') (cs : List Char) :
    placeholder? (c :: cs) = none := by
  unfold placeholder?
  split <;> simp_all

theorem untilClosed?_append {raw : List Char} (hclose : '\x7d' ∉ raw) (hline : '\n' ∉ raw)
    (rest : List Char) : untilClosed? (raw ++ '\x7d' :: '\x7d' :: rest) = some (raw, rest) := by
  induction raw with
  | nil => rfl
  | cons c raw ih =>
    simp only [List.mem_cons, not_or] at hclose hline
    rw [List.cons_append, untilClosed?, ih hclose.2 hline.2]
    · rfl
    · exact fun hc => hline.1 hc.symm
    · exact fun _ hc _ => hclose.1 hc.symm

/-- A placeholder is read back as it was written, whatever stands behind it. -/
theorem placeholder?_written {raw : List Char} (hne : raw ≠ []) (hclose : '\x7d' ∉ raw)
    (hline : '\n' ∉ raw) (rest : List Char) :
    placeholder? ('\x7b' :: '\x7b' :: raw ++ '\x7d' :: '\x7d' :: rest) = some (raw, rest) := by
  obtain ⟨c, raw, rfl⟩ := List.exists_cons_of_ne_nil hne
  simp only [List.mem_cons, not_or] at hclose hline
  simp [placeholder?, untilClosed?_append hclose.2 hline.2, Ne.symm hline.1]

end Segment

namespace Interpolation

open Segment

variable {ε : Type} {lookup : KeyPath → Except ε String}

theorem render_consChar (c : Char) (segments : List Segment) :
    render lookup (consChar c segments) =
      (render lookup segments).map (String.singleton c ++ ·) := by
  unfold consChar
  split
  · rename_i s segments
    simp only [render]
    cases render lookup segments <;>
      simp [bind, Except.bind, pure, Except.pure, Except.map, String.append_assoc]
  · rw [render]
    cases render lookup segments <;> simp [bind, Except.bind, pure, Except.pure, Except.map]

/-- Characters that open no placeholder are rendered as themselves, in front of the rest. -/
theorem render_split_append {cs : List Char} (h : '\x7b' ∉ cs) (rest : List Char) :
    render lookup (split (cs ++ rest)) =
      (render lookup (split rest)).map (String.ofList cs ++ ·) := by
  induction cs with
  | nil =>
    rw [List.nil_append]
    cases render lookup (split rest) <;> simp [Except.map]
  | cons c cs ih =>
    simp only [List.mem_cons, not_or] at h
    rw [List.cons_append, split_cons (placeholder?_cons (Ne.symm h.1) _), render_consChar, ih h.2]
    cases render lookup (split rest) <;> simp [Except.map, String.append_assoc]

/-- A placeholder is rendered as what is looked up for it, in front of the rest. -/
theorem render_split_placeholder {cs raw rest : List Char} {s : String}
    (hfound : placeholder? cs = some (raw, rest)) (hlookup : lookup ⟨String.ofList raw⟩ = .ok s) :
    render lookup (split cs) = (render lookup (split rest)).map (s ++ ·) := by
  rw [split_eq_of_placeholder? hfound, render, hlookup]
  cases render lookup (split rest) <;> rfl

end Interpolation

namespace Piece

/-- A key that a placeholder can name: blanks around it can be told from it, and nothing in it ends
a segment or a placeholder. -/
structure IsKey (key : String) : Prop where
  ne_empty : key ≠ ""
  trim_eq : Text.trim key = key
  point : '.' ∉ key.toList
  opening : '\x7b' ∉ key.toList
  closing : '\x7d' ∉ key.toList
  one_line : '\n' ∉ key.toList

/-- A piece over a number of keys: its literal contains no brace, its position is one of a key. -/
def Fits (count : Nat) : Piece → Prop
  | .literal s => '\x7b' ∉ s.toList ∧ '\x7d' ∉ s.toList
  | .placeholder index _ => index < count

instance (key : String) : Decidable (IsKey key) :=
  decidable_of_iff
    (key ≠ "" ∧ Text.trim key = key ∧ '.' ∉ key.toList ∧ '\x7b' ∉ key.toList ∧
      '\x7d' ∉ key.toList ∧ '\n' ∉ key.toList)
    ⟨fun ⟨h₁, h₂, h₃, h₄, h₅, h₆⟩ => ⟨h₁, h₂, h₃, h₄, h₅, h₆⟩,
      fun ⟨h₁, h₂, h₃, h₄, h₅, h₆⟩ => ⟨h₁, h₂, h₃, h₄, h₅, h₆⟩⟩

instance (count : Nat) : (piece : Piece) → Decidable (piece.Fits count)
  | .literal s => inferInstanceAs (Decidable ('\x7b' ∉ s.toList ∧ '\x7d' ∉ s.toList))
  | .placeholder index _ => inferInstanceAs (Decidable (index < count))

/-- The key in a placeholder, with the blanks around it. -/
def pad (padded : Bool) (key : String) : List Char :=
  if padded then ' ' :: key.toList ++ [' '] else key.toList

theorem written_placeholder (keys : List String) (index : Nat) (padded : Bool) :
    written keys (.placeholder index padded) =
      '\x7b' :: '\x7b' :: pad padded (key keys index) ++ ['\x7d', '\x7d'] := by
  cases padded <;> simp [written, pad]

/-- A key is the only segment of the path that is read, with or without blanks around it. -/
theorem IsKey.segments_pad {key : String} (h : IsKey key) (padded : Bool) :
    (⟨String.ofList (pad padded key)⟩ : KeyPath).segments = [key] := by
  have hpoint : '.' ∉ (String.ofList (pad padded key)).toList := by
    rw [String.toList_ofList]
    cases padded <;> simp [pad, h.point]
  have htrim : Text.trim (String.ofList (pad padded key)) = Text.trim key := by
    rw [Text.trim, String.toList_ofList]
    cases padded with
    | false => rfl
    | true =>
      have hblank : ∀ c ∈ [' '], Text.isBlank c = true := List.forall_mem_singleton.2 (by decide)
      rw [Text.trim, ← Text.trimChars_surround hblank hblank key.toList]
      rfl
  rw [KeyPath.segments_eq_singleton hpoint, htrim, h.trim_eq]

/-- A written placeholder is read back with the blanks in its path. -/
theorem IsKey.placeholder?_pad {key : String} (h : IsKey key) (padded : Bool) (rest : List Char) :
    Segment.placeholder? ('\x7b' :: '\x7b' :: pad padded key ++ '\x7d' :: '\x7d' :: rest) =
      some (pad padded key, rest) := by
  have hne : key.toList ≠ [] := by simpa using h.ne_empty
  apply Segment.placeholder?_written
  · cases padded <;> simp [pad, hne]
  · cases padded <;> simp [pad, h.closing]
  · cases padded <;> simp [pad, h.one_line]

theorem isKey_key {keys : List String} (h : ∀ key ∈ keys, IsKey key) {index : Nat}
    (hindex : index < keys.length) : key keys index ∈ keys ∧ IsKey (key keys index) := by
  have hmem : key keys index ∈ keys := by simp [key, hindex]
  exact ⟨hmem, h _ hmem⟩

theorem expand_cons (piece : Piece) (pieces : List Piece) (keys : List String)
    (lookup : String → String) :
    expand (piece :: pieces) keys lookup =
      String.ofList (value keys lookup piece) ++ expand pieces keys lookup := by
  simp [expand]

/-- What is written for pieces is rendered as what they stand for. -/
theorem render_split_written {ε : Type} (find : KeyPath → Except ε String) {keys : List String}
    (lookup : String → String) (hkeys : ∀ key ∈ keys, IsKey key)
    (hfind : ∀ p, ∀ key ∈ keys, p.segments = [key] → find p = .ok (lookup key))
    {pieces : List Piece} (hpieces : ∀ piece ∈ pieces, piece.Fits keys.length) :
    Interpolation.render find (Segment.split (pieces.flatMap (written keys))) =
      .ok (expand pieces keys lookup) := by
  induction pieces with
  | nil => simp [Segment.split, Interpolation.render, expand]
  | cons piece pieces ih =>
    rw [List.forall_mem_cons] at hpieces
    have hrest := ih hpieces.2
    rw [List.flatMap_cons, expand_cons]
    cases piece with
    | literal s =>
      rw [written, Interpolation.render_split_append hpieces.1.1, hrest]
      rfl
    | placeholder index padded =>
      obtain ⟨hmem, hkey⟩ := isKey_key hkeys hpieces.1
      have hlookup := hfind ⟨_⟩ _ hmem (hkey.segments_pad padded)
      have hfound := hkey.placeholder?_pad padded (pieces.flatMap (written keys))
      simp only [written_placeholder, List.append_assoc, List.cons_append, List.nil_append]
        at hfound ⊢
      rw [Interpolation.render_split_placeholder hfound hlookup, hrest, value, String.ofList_toList]
      rfl

/-- What is read back as a placeholder has a key as its only segment. -/
theorem exists_key_of_mem_split {keys : List String} (hkeys : ∀ key ∈ keys, IsKey key)
    {pieces : List Piece} (hpieces : ∀ piece ∈ pieces, piece.Fits keys.length) {p : KeyPath}
    (hp : .placeholder p ∈ Segment.split (pieces.flatMap (written keys))) :
    ∃ key ∈ keys, p.segments = [key] := by
  -- A lookup that faults at every other path is not asked for one, as nothing faults.
  have hrender := render_split_written
    (fun p => if ∃ key ∈ keys, p.segments = [key] then .ok p.last else .error ()) id hkeys
    (fun p key hkey hp => by simp [hp, hkey, KeyPath.last]) hpieces
  obtain ⟨t, ht⟩ := Interpolation.exists_of_render_eq_ok hrender hp
  by_contra hnone
  simp [hnone] at ht

/-- Rendering a template that was written from pieces gives what the pieces stand for, if each
placeholder is looked up by its only segment. -/
theorem render_source {σ : Type} {find : KeyPath → Act σ Value} {keys : List String}
    (lookup : String → String) (hkeys : ∀ key ∈ keys, IsKey key)
    (hfind : ∀ p w, ∀ key ∈ keys, p.segments = [key] →
      (find p).runOn w = (.ok (.text (lookup key)), w))
    {pieces : List Piece} (hpieces : ∀ piece ∈ pieces, piece.Fits keys.length) (w : World σ) :
    (Act.render find (Interpolation.parse (source pieces keys))).runOn w =
      (.ok (expand pieces keys lookup), w) := by
  have hsplit : (Interpolation.parse (source pieces keys)).segments =
      Segment.split (pieces.flatMap (written keys)) := by
    rw [Interpolation.parse, source, String.toList_ofList]
  rw [Act.runOn_render (f := fun p => .ok (.text (lookup p.last))), hsplit,
    render_split_written _ lookup hkeys _ hpieces]
  · intro p key _ hp
    simp [Except.map, Store.display, KeyPath.last, hp]
  · intro p hp
    rw [hsplit] at hp
    obtain ⟨key, hkey, hsegments⟩ := exists_key_of_mem_split hkeys hpieces hp
    rw [hfind p _ key hkey hsegments]
    simp [KeyPath.last, hsegments]

/-- Placeholders with and without blanks, adjacent and repeated, and an empty literal. -/
theorem render_source_repeated :
    source [.placeholder 0 true, .placeholder 1 false, .literal "", .placeholder 0 false,
        .literal "-\n"] ["a", "b c"] =
          "\x7b\x7b a \x7d\x7d\x7b\x7bb c\x7d\x7d\x7b\x7ba\x7d\x7d-\n" ∧
      (Act.render (fun p => match p.segments with
          | [key] => pure (.text ("(" ++ key ++ ")"))
          | _ => throw (.pathResolution p.raw "" .null))
        (Interpolation.parse (source [.placeholder 0 true, .placeholder 1 false, .literal "",
          .placeholder 0 false, .literal "-\n"] ["a", "b c"]))).runOn
          (World.ofDocument (σ := Unit) .empty) =
        (.ok "(a)(b c)(a)-\n", World.ofDocument .empty) :=
  ⟨by decide, render_source (fun key => "(" ++ key ++ ")") (by decide)
    (fun p w key _ hp => by simp [hp]) (by decide) _⟩

end Piece

end LiveBinding
