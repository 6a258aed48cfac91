import FlatModules.Proofs.Digest.Listing

/-!
# Digest — what a listing says

A path is listed as it is spelled, between marks that it may hold itself.  Of a listing the files can
be read off (`listing_told_apart`) unless one of the paths, with the colon that is written after it,
goes over from one line to the next (`TwoLines`).  So digests of different files or contents are
different (`digest_told_apart`), but for such paths (`one_listing_of_two`) and for two byte strings
with one hash.
-/

namespace FlatModules

namespace Digest

/-- A path that is spelled like the end of a line and the beginning of another, when it is followed by
a colon. -/
def TwoLines (p : Path) : Prop :=
  ∃ front hash back, p.text ++ ":" = front ++ ":" ++ hash ++ "\nF:" ++ back ∧
    hash.toList.length = 64 ∧ ∀ c ∈ hash.toList, Sha256.IsHexDigit c

/-- The bytes that are hashed for the digest of files with some contents. -/
def listed (files : List Path) (bytes : Path → ByteArray) : ByteArray :=
  (listing (files.map fun q => (q, Sha256.hash (bytes q)))).toUTF8

theorem colon_not_isHexDigit : ¬ Sha256.IsHexDigit ':' := by
  rintro ⟨n, small, e⟩
  have all : ∀ n : Fin 16, ':' ≠ Sha256.hexDigit n := by decide
  exact all ⟨n, small⟩ e

theorem listing_toList_cons (x : Path × String) (xs : List (Path × String)) :
    (listing (x :: xs)).toList =
      'F' :: ':' :: (x.1.text.toList ++ ':' :: (x.2.toList ++ '\n' :: (listing xs).toList)) := by
  simp [listing_cons, entryLine]

/-- What has no mark and comes before one comes before the first. -/
theorem exists_of_append_eq_append_cons {c : Char} {xs ys zs ws : List Char} (h : c ∉ xs)
    (e : xs ++ ys = zs ++ c :: ws) : ∃ more, zs = xs ++ more ∧ ys = more ++ c :: ws := by
  rcases List.append_eq_append_iff.1 e with ⟨more, he, he'⟩ | ⟨more, he, he'⟩
  · exact ⟨more, he, he'⟩
  · cases more with
    | nil => exact ⟨[], by simpa using he.symm, by simpa using he'.symm⟩
    | cons d more =>
      obtain ⟨rfl, -⟩ := List.cons.inj he'
      simp [he] at h

/-- Of lines that are spelled alike, the one with the shorter path ends first, in the path of the
other. -/
theorem path_eq_or_twoLines {x y : Path × String} {xs ys : List (Path × String)} {more : List Char}
    (length : x.2.toList.length = 64) (digits : ∀ c ∈ x.2.toList, Sha256.IsHexDigit c)
    (longer : y.1.text.toList = x.1.text.toList ++ more)
    (e : (listing (x :: xs)).toList = (listing (y :: ys)).toList) : x.1 = y.1 ∨ TwoLines y.1 := by
  cases more with
  | nil => exact .inl (congrArg Path.mk (String.toList_inj.1 (by simpa using longer.symm)))
  | cons c more =>
    rw [listing_toList_cons, listing_toList_cons, longer, List.append_assoc] at e
    have rest := List.append_cancel_left (List.cons.inj (List.cons.inj e).2).2
    obtain ⟨rfl, rest⟩ := List.cons.inj rest
    -- the hash has no colon, so that it ends in the other path
    have noColon : ':' ∉ x.2.toList ++ ['\n'] := by
      simp only [List.mem_append, List.mem_singleton, not_or]
      exact ⟨fun mem => colon_not_isHexDigit (digits _ mem), by decide⟩
    have rest : (x.2.toList ++ ['\n']) ++ (listing xs).toList =
        more ++ ':' :: (y.2.toList ++ '\n' :: (listing ys).toList) := by
      simpa using rest
    obtain ⟨more, rfl, next⟩ := exists_of_append_eq_append_cons noColon rest
    -- and what comes after it is another line
    obtain ⟨back, start⟩ : ∃ back, more ++ [':'] = 'F' :: ':' :: back := by
      cases xs with
      | nil => exact absurd next (by simp [listing])
      | cons z zs =>
        rw [listing_toList_cons] at next
        obtain ⟨back, rfl, colon⟩ := exists_of_append_eq_append_cons (by decide : ':' ∉ ['F']) next
        cases back with
        | nil => exact ⟨[], rfl⟩
        | cons c back => exact ⟨back ++ [':'], by simp [← (List.cons.inj colon).1]⟩
    refine .inr ⟨x.1.text, x.2, String.ofList back, String.toList_inj.1 ?_, length, digits⟩
    simp only [String.toList_append, longer, String.toList_ofList, List.append_assoc,
      show ":".toList = [':'] from rfl, show "\nF:".toList = ['\n', 'F', ':'] from rfl,
      List.cons_append, List.nil_append, ← start]

/-- Of a listing the files and their hashes can be read off, but for paths that go over from one line
to the next. -/
theorem listing_told_apart {xs ys : List (Path × String)}
    (hash : ∀ x ∈ xs ++ ys, x.2.toList.length = 64 ∧ ∀ c ∈ x.2.toList, Sha256.IsHexDigit c)
    (plain : ∀ x ∈ xs ++ ys, ¬ TwoLines x.1) (e : listing xs = listing ys) : xs = ys := by
  induction xs generalizing ys with
  | nil =>
    cases ys with
    | nil => rfl
    | cons y ys => exact absurd (listing_cons y ys ▸ e.symm) (entryLine_ne_empty _ _ _)
  | cons x xs ih =>
    cases ys with
    | nil => exact absurd (listing_cons x xs ▸ e) (entryLine_ne_empty _ _ _)
    | cons y ys =>
      have texts := congrArg String.toList e
      obtain ⟨lengthX, digitsX⟩ := hash x (by simp)
      obtain ⟨lengthY, digitsY⟩ := hash y (by simp)
      have path : x.1 = y.1 := by
        have lines := texts
        rw [listing_toList_cons, listing_toList_cons] at lines
        rcases List.append_eq_append_iff.1 (List.cons.inj (List.cons.inj lines).2).2 with
          ⟨more, longer, -⟩ | ⟨more, longer, -⟩
        · exact (path_eq_or_twoLines lengthX digitsX longer texts).resolve_right
            (plain y (by simp))
        · exact ((path_eq_or_twoLines lengthY digitsY longer texts.symm).resolve_right
            (plain x (by simp))).symm
      rw [listing_toList_cons, listing_toList_cons, path] at texts
      have rest := List.append_cancel_left (List.cons.inj (List.cons.inj texts).2).2
      obtain ⟨hashes, rest⟩ := List.append_inj (List.cons.inj rest).2 (lengthX.trans lengthY.symm)
      have tails := ih (fun z hz => hash z (by simp at hz ⊢; tauto))
        (fun z hz => plain z (by simp at hz ⊢; tauto)) (String.toList_inj.1 (List.cons.inj rest).2)
      rw [Prod.ext path (String.toList_inj.1 hashes), tails]

/-- Files and contents of which the same bytes are listed are alike. -/
theorem alike_of_listed_eq {files files' : List Path} {bytes bytes' : Path → ByteArray}
    (plain : ∀ q ∈ files ++ files', ¬ TwoLines q) (e : listed files bytes = listed files' bytes') :
    files = files' ∧ ∀ q ∈ files, Sha256.hash (bytes q) = Sha256.hash (bytes' q) := by
  have hashed : ∀ x ∈ files.map (fun q => (q, Sha256.hash (bytes q))) ++
      files'.map (fun q => (q, Sha256.hash (bytes' q))),
      (x.2.toList.length = 64 ∧ ∀ c ∈ x.2.toList, Sha256.IsHexDigit c) ∧ ¬ TwoLines x.1 := by
    simp only [List.mem_append, List.mem_map]
    rintro x (⟨q, hq, rfl⟩ | ⟨q, hq, rfl⟩)
    all_goals
      exact ⟨⟨Sha256.length_hash _, fun _ => Sha256.isHexDigit_of_mem_hash⟩, plain q (by simp [hq])⟩
  have lines := listing_told_apart (fun x hx => (hashed x hx).1) (fun x hx => (hashed x hx).2)
    (String.toByteArray_inj.1 e)
  have same : files = files' := by
    simpa [Function.comp_def] using congrArg (List.map Prod.fst) lines
  subst same
  exact ⟨rfl, fun q hq => (Prod.mk.inj (List.map_inj_left.1 lines q hq)).2⟩

theorem digestFiles_eq_hash_listed {d : Disk} {root : Path} {files : List Path}
    {bytes : Path → ByteArray} (read : ∀ q ∈ files, d.readBytes (root / q) = .ok (bytes q)) :
    digestFiles d root files = .ok (Sha256.hash (listed files bytes)) := by
  rw [digestFiles, hashFiles_eq read]
  rfl

/-- Files that are listed alike, or have one digest, are the same and have the same hashes of contents;
unless two byte strings have one hash. -/
theorem digest_told_apart {d d' : Disk} {root root' : Path} {files files' : List Path}
    {bytes bytes' : Path → ByteArray}
    (read : ∀ q ∈ files, d.readBytes (root / q) = .ok (bytes q))
    (read' : ∀ q ∈ files', d'.readBytes (root' / q) = .ok (bytes' q))
    (plain : ∀ q ∈ files ++ files', ¬ TwoLines q) :
    digestFiles d root files = .ok (Sha256.hash (listed files bytes)) ∧
    digestFiles d' root' files' = .ok (Sha256.hash (listed files' bytes')) ∧
    (listed files bytes = listed files' bytes' →
      files = files' ∧ ∀ q ∈ files, Sha256.hash (bytes q) = Sha256.hash (bytes' q)) ∧
    (digestFiles d root files = digestFiles d' root' files' →
      (files = files' ∧ ∀ q ∈ files, Sha256.hash (bytes q) = Sha256.hash (bytes' q)) ∨
      listed files bytes ≠ listed files' bytes' ∧
        Sha256.hash (listed files bytes) = Sha256.hash (listed files' bytes')) := by
  have digest := digestFiles_eq_hash_listed read
  have digest' := digestFiles_eq_hash_listed read'
  refine ⟨digest, digest', alike_of_listed_eq plain, fun e => ?_⟩
  rw [digest, digest', Except.ok.injEq] at e
  by_cases same : listed files bytes = listed files' bytes'
  · exact .inl (alike_of_listed_eq plain same)
  · exact .inr ⟨same, e⟩

/-! ### A path over two lines -/

/-- A path that is spelled like the rest of a line for `a`, where nothing is in the file, and the
beginning of a line for `b`. -/
def joinedPath : Path :=
  ⟨"a:e3b0c44298fc1c149afbf4c8996fb92427ae41e4649b934ca495991b7852b855\nF:b"⟩

/-- A disk whose project has empty files of some names. -/
def emptyFiles (names : List String) : Disk :=
  ⟨(["p"], .dir) :: names.map fun name => (["p", name], .file .empty)⟩

/-- With no such path, files with colons and line feeds in their names are told apart. -/
theorem digest_told_apart_colons :
    (∀ q ∈ [(⟨"a:b"⟩ : Path), ⟨"c\nF:d"⟩],
      (emptyFiles ["a:b", "c\nF:d"]).readBytes (⟨"/p"⟩ / q) = .ok .empty) ∧
    (∀ q ∈ [(⟨"c\nF:d"⟩ : Path)],
      (emptyFiles ["c\nF:d"]).readBytes (⟨"/p"⟩ / q) = .ok .empty) ∧
    (∀ q ∈ [(⟨"a:b"⟩ : Path), ⟨"c\nF:d"⟩] ++ [⟨"c\nF:d"⟩], ¬ TwoLines q) ∧
    listed [⟨"a:b"⟩, ⟨"c\nF:d"⟩] (fun _ => .empty) ≠ listed [⟨"c\nF:d"⟩] (fun _ => .empty) := by
  have read : ∀ q ∈ [(⟨"a:b"⟩ : Path), ⟨"c\nF:d"⟩],
      (emptyFiles ["a:b", "c\nF:d"]).readBytes (⟨"/p"⟩ / q) = .ok .empty := by decide +kernel
  have read' : ∀ q ∈ [(⟨"c\nF:d"⟩ : Path)],
      (emptyFiles ["c\nF:d"]).readBytes (⟨"/p"⟩ / q) = .ok .empty := by decide +kernel
  have short : ∀ q ∈ [(⟨"a:b"⟩ : Path), ⟨"c\nF:d"⟩] ++ [⟨"c\nF:d"⟩], ¬ TwoLines q := by
    have small : ∀ q ∈ [(⟨"a:b"⟩ : Path), ⟨"c\nF:d"⟩] ++ [⟨"c\nF:d"⟩], q.text.toList.length < 64 := by
      decide
    rintro q hq ⟨front, hash, back, e, length, -⟩
    have long := congrArg (·.toList.length) e
    simp only [String.toList_append, List.length_append, length] at long
    have : ":".toList.length = 1 := rfl
    have := small q hq
    omega
  refine ⟨read, read', short, fun e => ?_⟩
  exact absurd ((digest_told_apart read read' short).2.2.1 e).1 (by decide)

/-- One file is listed like two others. -/
theorem one_listing_of_two :
    ∃ (d d' : Disk) (files files' : List Path) (bytes bytes' : Path → ByteArray),
      (∀ q ∈ files, d.readBytes (⟨"/p"⟩ / q) = .ok (bytes q)) ∧
      (∀ q ∈ files', d'.readBytes (⟨"/p"⟩ / q) = .ok (bytes' q)) ∧
      listed files bytes = listed files' bytes' ∧
      digestFiles d ⟨"/p"⟩ files = digestFiles d' ⟨"/p"⟩ files' ∧ files ≠ files' := by
  have read : ∀ q ∈ [(⟨"a"⟩ : Path), ⟨"b"⟩],
      (emptyFiles ["a", "b"]).readBytes (⟨"/p"⟩ / q) = .ok .empty := by decide +kernel
  have read' : ∀ q ∈ [joinedPath],
      (emptyFiles [joinedPath.text]).readBytes (⟨"/p"⟩ / q) = .ok .empty := by decide +kernel
  have same : listed [⟨"a"⟩, ⟨"b"⟩] (fun _ => .empty) = listed [joinedPath] (fun _ => .empty) := by
    decide +kernel
  refine ⟨_, _, _, _, _, _, read, read', same, ?_, by decide⟩
  rw [digestFiles_eq_hash_listed read, digestFiles_eq_hash_listed read', same]

end Digest
end FlatModules
