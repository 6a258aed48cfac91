import FlatModules.Build.Apply
import FlatModules.Proofs.Path.Parts

/-!
# Digest — hashes and listings

A hash is written in 64 hexadecimal digits (`Sha256.length_hash`), so that nothing is lost of it when
white space around it is dropped (`trimmed_hash`).  The digest of files that can all be read is that
of their bytes (`Digest.digestFiles_eq`).  Listings of files in one directory are told apart
(`Digest.listing_inj`), and so are root modules by the digests in them (`rootText_digest_inj`).
-/

namespace FlatModules

namespace Sha256

/-- A digit of hexadecimal. -/
def IsHexDigit (c : Char) : Prop := ∃ n < 16, c = hexDigit n

theorem isHexDigit_of_mem_hash {message : ByteArray} {c : Char} (h : c ∈ (hash message).toList) :
    IsHexDigit c := by
  simp only [hash, String.toList_ofList, List.mem_flatMap, wordHex, List.mem_map] at h
  obtain ⟨w, -, i, -, rfl⟩ := h
  exact ⟨_, Nat.mod_lt _ (by decide), rfl⟩

theorem length_hash (message : ByteArray) : (hash message).toList.length = 64 := by
  simp [hash, wordHex]

theorem IsHexDigit.isBlank {c : Char} (h : IsHexDigit c) : Text.isBlank c = false := by
  obtain ⟨n, small, rfl⟩ := h
  have all : ∀ n : Fin 16, Text.isBlank (hexDigit n) = false := by decide
  exact all ⟨n, small⟩

end Sha256

/-- A text without white space is what is left of it with a line feed at its end. -/
theorem trimmed_line {text : String} (h : ∀ c ∈ text.toList, Text.isBlank c = false) :
    trimmed (text ++ "\n") = text := by
  have all (cs : List Char) (hcs : ∀ c ∈ cs, Text.isBlank c = false) :
      cs.dropWhile Text.isBlank = cs := by
    cases cs with
    | nil => rfl
    | cons c cs => simp [hcs c]
  have feed : Text.isBlank '\n' = true := by decide
  have back := all text.toList.reverse (by simpa using h)
  refine String.toList_inj.1 ?_
  rw [trimmed, String.toList_ofList, Text.trim, String.toList_append]
  cases e : text.toList with
  | nil => decide
  | cons c cs =>
    have first : Text.isBlank c = false := h c (by simp [e])
    rw [e] at back
    simp only [List.cons_append, List.dropWhile_cons, first, Bool.false_eq_true, ↓reduceIte]
    rw [← List.cons_append, show "\n".toList = ['\n'] from rfl, List.reverse_append,
      List.reverse_singleton, List.singleton_append, List.dropWhile_cons, if_pos feed, back,
      List.reverse_reverse]

theorem trimmed_hash (message : ByteArray) :
    trimmed (Sha256.hash message ++ "\n") = Sha256.hash message :=
  trimmed_line fun _ hc => (Sha256.isHexDigit_of_mem_hash hc).isBlank

namespace Digest

/-- The digest of files, by their paths and bytes. -/
def digestOf (files : List (Path × ByteArray)) : String :=
  Sha256.hash (listing (files.map fun (q, bytes) => (q, Sha256.hash bytes))).toUTF8

variable {d : Disk} {root : Path} {files : List Path} {bytes : Path → ByteArray}

theorem hashFiles_eq (h : ∀ q ∈ files, d.readBytes (root / q) = .ok (bytes q)) :
    hashFiles d root files = .ok (files.map fun q => (q, Sha256.hash (bytes q))) := by
  unfold hashFiles
  induction files with
  | nil => rfl
  | cons q files ih =>
    have first : hashFile d (root / q) = .ok (Sha256.hash (bytes q)) := by
      rw [hashFile, h q List.mem_cons_self]
    rw [List.mapM_cons, first, ih fun r hr => h r (List.mem_cons_of_mem _ hr)]
    rfl

theorem digestFiles_eq (h : ∀ q ∈ files, d.readBytes (root / q) = .ok (bytes q)) :
    digestFiles d root files = .ok (digestOf (files.map fun q => (q, bytes q))) := by
  rw [digestFiles, hashFiles_eq h, digestOf, List.map_map]
  rfl

/-- What is listed of a file of some directory: its path goes on after that of the directory, in
which there may be a colon, without one. -/
structure Listed (front : String) (x : Path × String) : Prop where
  path : ∃ name, x.1.text = front ++ name ∧ ':' ∉ name.toList
  hash : x.2.toList.length = 64

theorem listing_cons (x : Path × String) (xs : List (Path × String)) :
    listing (x :: xs) = entryLine x.1 x.2 ++ listing xs := by
  refine String.toList_inj.1 ?_
  simp [listing]

theorem entryLine_ne_empty (p : Path) (contentHash rest : String) :
    entryLine p contentHash ++ rest ≠ "" := by
  intro e
  have := congrArg String.toList e
  simp [entryLine] at this

/-- Where a line begins it can be read off. -/
theorem entryLine_append_inj {front : String} {x y : Path × String} (hx : Listed front x)
    (hy : Listed front y) {s t : String}
    (e : entryLine x.1 x.2 ++ s = entryLine y.1 y.2 ++ t) : x = y ∧ s = t := by
  obtain ⟨name, text, colon⟩ := hx.path
  obtain ⟨name', text', colon'⟩ := hy.path
  have line {z : Path × String} {name rest : String} (text : z.1.text = front ++ name) :
      (entryLine z.1 z.2 ++ rest).toList = ("F:" ++ front).toList ++
        (name.toList ++ ':' :: (z.2.toList ++ '\n' :: rest.toList)) := by
    simp [entryLine, text, String.toList_append]
  have lines := congrArg String.toList e
  rw [line text, line text'] at lines
  have cut := congrArg (Text.cutOnce ':') (List.append_cancel_left lines)
  rw [Text.cutOnce_append colon, Text.cutOnce_append colon'] at cut
  obtain ⟨names, rest⟩ := Prod.mk.inj (Option.some.inj cut)
  obtain ⟨hashes, rest⟩ := List.append_inj rest (hx.hash.trans hy.hash.symm)
  have paths : x.1.text = y.1.text := by rw [text, text', String.toList_inj.1 names]
  exact ⟨Prod.ext (congrArg Path.mk paths) (String.toList_inj.1 hashes),
    String.toList_inj.1 (List.cons.inj rest).2⟩

theorem listing_inj {front : String} {xs ys : List (Path × String)} (hx : ∀ x ∈ xs, Listed front x)
    (hy : ∀ y ∈ ys, Listed front y) (e : listing xs = listing ys) : xs = ys := by
  induction xs generalizing ys with
  | nil =>
    cases ys with
    | nil => rfl
    | cons y ys => exact absurd (listing_cons y ys ▸ e.symm) (entryLine_ne_empty _ _ _)
  | cons x xs ih =>
    cases ys with
    | nil => exact absurd (listing_cons x xs ▸ e) (entryLine_ne_empty _ _ _)
    | cons y ys =>
      rw [listing_cons, listing_cons] at e
      obtain ⟨rfl, rest⟩ := entryLine_append_inj (hx x List.mem_cons_self) (hy y List.mem_cons_self) e
      rw [ih (fun z hz => hx z (List.mem_cons_of_mem _ hz))
        (fun z hz => hy z (List.mem_cons_of_mem _ hz)) rest]

end Digest

/-- Root modules of one name are told apart by the digests in them. -/
theorem rootText_digest_inj {name digest digest' aliases aliases' : String}
    (length : digest.toList.length = digest'.toList.length)
    (e : rootText name digest aliases = rootText name digest' aliases') : digest = digest' := by
  have texts := congrArg String.toList e
  simp only [rootText, String.toList_append, List.append_assoc] at texts
  exact String.toList_inj.1
    (List.append_inj (List.append_cancel_left (List.append_cancel_left (List.append_cancel_left texts)))
      length).1

end FlatModules
