import Chordboard.Settings
import Mathlib.Data.List.Induction

/-!
# Streams of settings

Which streams of words hold settings, and what settings they hold. A stream that is accepted
(`Accepts`) starts with the version word and a count, and goes on with so many pairs of a
setting's number and a value. The pairs are read in one pass, in which a later value takes the
place of an earlier one; what comes out is told by the last value of each setting (`lastValue?`),
so that a scan period of zero does no harm if another one follows.

`load_grammar` says this of every stream of words, and which error the others get.
-/

namespace Chordboard

namespace Settings

/-! ## Pairs -/

/-- The words of pairs of a setting's number and a value. -/
def pairWords (pairs : List (UInt16 × UInt16)) : List UInt16 :=
  pairs.flatMap fun p => [p.1, p.2]

/-- The last value that pairs give a setting. -/
def lastValue? (pairs : List (UInt16 × UInt16)) (which : Setting) : Option UInt16 :=
  (pairs.filter fun p => p.1 = which.word).getLast?.map Prod.snd

/-- The ticks of a setting after the pairs: those of its last value, or the usual ones. -/
def ticksOf (pairs : List (UInt16 × UInt16)) (which : Setting) : Nat :=
  match lastValue? pairs which with
  | some value => milliseconds value
  | none => usual.get which

/-- The words hold settings: the version, a count, and so many pairs of known settings, the last
scan period not being zero. Any words may follow. -/
structure Accepts (words : List UInt16) (pairs : List (UInt16 × UInt16)) : Prop where
  words_eq : ∃ count rest,
    words = version :: count :: (pairWords pairs ++ rest) ∧ pairs.length = count.toNat
  known : ∀ p ∈ pairs, ∃ which : Setting, p.1 = which.word
  scan_ne : lastValue? pairs .scan ≠ some 0

theorem lastValue?_concat (pairs : List (UInt16 × UInt16)) (p : UInt16 × UInt16)
    (which : Setting) :
    lastValue? (pairs ++ [p]) which =
      if p.1 = which.word then some p.2 else lastValue? pairs which := by
  unfold lastValue?
  rw [List.filter_append]
  by_cases h : p.1 = which.word
  · simp [h]
  · simp [h]

theorem ext_get {s t : Settings} (h : ∀ which, s.get which = t.get which) : s = t := by
  cases s
  cases t
  have hdebounce := h .debounce
  have hchord := h .chord
  have hheld := h .held
  have hscan := h .scan
  simp_all [get]

/-! ## One pass -/

/-- What reading a pair makes of the settings. -/
def setPair (s : Settings) (p : UInt16 × UInt16) : Settings :=
  match Setting.ofWord? p.1 with
  | some which => s.set which (milliseconds p.2)
  | none => s

/-- **One step.** A pair gives its own setting a value, and leaves the others alone. -/
theorem get_setPair (s : Settings) (p : UInt16 × UInt16) (which : Setting) :
    (s.setPair p).get which = if p.1 = which.word then milliseconds p.2 else s.get which := by
  unfold setPair
  split
  · rename_i own hown
    have hword := Setting.ofWord?_eq_some_iff.1 hown
    rw [get_set, hword]
    by_cases h : own = which
    · simp [h]
    · have hne : own.word ≠ which.word := by
        intro heq
        have hsame := Setting.ofWord?_word own
        rw [heq, Setting.ofWord?_word] at hsame
        cases hsame
        exact h rfl
      simp [h, hne]
  · rename_i hnone
    have hne : p.1 ≠ which.word := by
      intro heq
      rw [heq, Setting.ofWord?_word] at hnone
      cases hnone
    simp [hne]

/-- **The whole pass.** In the end a setting has the last value that it was given, if any. -/
theorem get_foldl_setPair (pairs : List (UInt16 × UInt16)) (s : Settings) (which : Setting) :
    (pairs.foldl setPair s).get which =
      match lastValue? pairs which with
      | some value => milliseconds value
      | none => s.get which := by
  induction pairs using List.reverseRecOn with
  | nil => rfl
  | append_singleton pairs p ih =>
      rw [List.foldl_append, lastValue?_concat]
      show ((pairs.foldl setPair s).setPair p).get which = _
      rw [get_setPair]
      by_cases h : p.1 = which.word
      · rw [if_pos h, if_pos h]
      · rw [if_neg h, if_neg h, ih]

theorem readPairs_of_known {pairs : List (UInt16 × UInt16)}
    (h : ∀ p ∈ pairs, ∃ which : Setting, p.1 = which.word) (rest : List UInt16) (s : Settings) :
    readPairs pairs.length (pairWords pairs ++ rest) s = .ok (pairs.foldl setPair s) := by
  induction pairs generalizing s with
  | nil => rfl
  | cons p pairs ih =>
      obtain ⟨which, hp⟩ := h p List.mem_cons_self
      have hset : s.setPair p = s.set which (milliseconds p.2) := by
        rw [setPair, hp, Setting.ofWord?_word]
      show readPairs (pairs.length + 1) (p.1 :: p.2 :: (pairWords pairs ++ rest)) s = _
      rw [readPairs, hp, Setting.ofWord?_word]
      dsimp only
      rw [ih fun q hq => h q (List.mem_cons_of_mem p hq), ← hset]
      rfl

/-- What is read without an error is so many pairs of known settings. -/
theorem exists_pairs_of_readPairs {count : Nat} {words : List UInt16} {s s' : Settings}
    (h : readPairs count words s = .ok s') :
    ∃ pairs rest, words = pairWords pairs ++ rest ∧ pairs.length = count ∧
      ∀ p ∈ pairs, ∃ which : Setting, p.1 = which.word := by
  fun_induction readPairs count words s with
  | case1 words s => exact ⟨[], words, rfl, rfl, nofun⟩
  | case2 count number value rest s which hwhich ih =>
      obtain ⟨pairs, after, rfl, hlen, hknown⟩ := ih h
      refine ⟨(number, value) :: pairs, after, rfl, by simp [hlen], ?_⟩
      intro p hp
      rcases List.mem_cons.1 hp with rfl | hp
      · exact ⟨which, Setting.ofWord?_eq_some_iff.1 hwhich⟩
      · exact hknown p hp
  | case3 => cases h
  | case4 => cases h

theorem eq_corrupt_of_readPairs {count : Nat} {words : List UInt16} {s : Settings}
    {e : SettingsError} (h : readPairs count words s = .error e) : e = .corrupt := by
  fun_induction readPairs count words s with
  | case1 => cases h
  | case2 count number value rest s which hwhich ih => exact ih h
  | case3 =>
      cases h
      rfl
  | case4 =>
      cases h
      rfl

/-- The words behind the pairs are not read. -/
theorem readPairs_append (pairs : List (UInt16 × UInt16)) (rest other : List UInt16)
    (s : Settings) :
    readPairs pairs.length (pairWords pairs ++ rest) s =
      readPairs pairs.length (pairWords pairs ++ other) s := by
  induction pairs generalizing s with
  | nil => rfl
  | cons p pairs ih =>
      show readPairs (pairs.length + 1) (p.1 :: p.2 :: (pairWords pairs ++ rest)) s =
        readPairs (pairs.length + 1) (p.1 :: p.2 :: (pairWords pairs ++ other)) s
      rw [readPairs, readPairs]
      split
      · exact ih _
      · rfl

/-! ## Loading -/

/-- The words start with a version other than this one. -/
def Mismatched (words : List UInt16) : Prop :=
  ∃ first rest, words = first :: rest ∧ first ≠ version

theorem not_mismatched_version (words : List UInt16) : ¬Mismatched (version :: words) := by
  rintro ⟨first, rest, heq, hne⟩
  cases heq
  exact hne rfl

theorem load_of_first_ne {first : UInt16} (words : List UInt16) (h : first ≠ version) :
    load (first :: words) = .error .versionMismatch :=
  if_pos h

theorem load_version_count (count : UInt16) (words : List UInt16) :
    load (version :: count :: words) =
      match readPairs count.toNat words usual with
      | .error e => .error e
      | .ok s => if s.scan = 0 then .error .corrupt else .ok s :=
  rfl

/-- After the pairs a setting has the ticks that they give it. -/
theorem get_foldl_usual (pairs : List (UInt16 × UInt16)) (which : Setting) :
    (pairs.foldl setPair usual).get which = ticksOf pairs which :=
  get_foldl_setPair pairs usual which

theorem scan_foldl_eq_zero_iff {pairs : List (UInt16 × UInt16)} :
    (pairs.foldl setPair usual).scan = 0 ↔ lastValue? pairs .scan = some 0 := by
  have hticks : (pairs.foldl setPair usual).scan = ticksOf pairs .scan :=
    get_foldl_usual pairs .scan
  rw [hticks, ticksOf]
  rcases lastValue? pairs .scan with _ | value
  · simp [usual, get, milliseconds]
  · have hzero : milliseconds value = 0 ↔ value = 0 := by
      rw [milliseconds, ← UInt16.toNat_inj, UInt16.toNat_zero]
      omega
    simp [hzero]

theorem load_of_accepts {words : List UInt16} {pairs : List (UInt16 × UInt16)}
    (h : Accepts words pairs) : load words = .ok (pairs.foldl setPair usual) := by
  obtain ⟨count, rest, rfl, hlen⟩ := h.words_eq
  have hscan : (pairs.foldl setPair usual).scan ≠ 0 := fun hzero =>
    h.scan_ne (scan_foldl_eq_zero_iff.1 hzero)
  rw [load_version_count, ← hlen, readPairs_of_known h.known]
  exact if_neg hscan

/-- Every stream is of another version, or accepted, or corrupt. -/
theorem load_cases (words : List UInt16) :
    (Mismatched words ∧ load words = .error .versionMismatch) ∨
    (∃ pairs, Accepts words pairs ∧ load words = .ok (pairs.foldl setPair usual)) ∨
    (¬Mismatched words ∧ load words = .error .corrupt) := by
  rcases words with _ | ⟨first, words⟩
  · right
    right
    refine ⟨?_, rfl⟩
    rintro ⟨_, _, heq, -⟩
    cases heq
  · by_cases hfirst : first = version
    · subst hfirst
      right
      rcases words with _ | ⟨count, words⟩
      · exact Or.inr ⟨not_mismatched_version [], rfl⟩
      · rcases hread : readPairs count.toNat words usual with e | s
        · right
          rw [load_version_count, hread, eq_corrupt_of_readPairs hread]
          exact ⟨not_mismatched_version _, rfl⟩
        · obtain ⟨pairs, rest, rfl, hlen, hknown⟩ := exists_pairs_of_readPairs hread
          by_cases hscan : lastValue? pairs .scan = some 0
          · right
            rw [load_version_count, ← hlen, readPairs_of_known hknown]
            exact ⟨not_mismatched_version _, if_pos (scan_foldl_eq_zero_iff.2 hscan)⟩
          · left
            have haccepts : Accepts (version :: count :: (pairWords pairs ++ rest)) pairs :=
              ⟨⟨count, rest, rfl, hlen⟩, hknown, hscan⟩
            exact ⟨pairs, haccepts, load_of_accepts haccepts⟩
    · left
      exact ⟨⟨first, words, rfl, hfirst⟩, load_of_first_ne words hfirst⟩

/-- **Streams of settings.** A stream loads if and only if it is accepted. Every setting then has
its last value, in ticks, or the usual one, and the words behind the pairs play no part. Else the
error is one of version if there is a first word that is not the version, and otherwise the stream
is corrupt. -/
theorem load_grammar (words : List UInt16) :
    ((∃ s, load words = .ok s) ↔ ∃ pairs, Accepts words pairs) ∧
    (∀ s, load words = .ok s ↔
      ∃ pairs, Accepts words pairs ∧ ∀ which, s.get which = ticksOf pairs which) ∧
    (load words = .error .versionMismatch ↔ Mismatched words) ∧
    (load words = .error .corrupt ↔ ¬Mismatched words ∧ ¬∃ pairs, Accepts words pairs) ∧
    ∀ count pairs rest other, words = version :: count :: (pairWords pairs ++ rest) →
      pairs.length = count.toNat →
      load (version :: count :: (pairWords pairs ++ other)) = load words := by
  have hok : (∃ s, load words = .ok s) ↔ ∃ pairs, Accepts words pairs := by
    constructor
    · rintro ⟨s, h⟩
      rcases load_cases words with ⟨-, hload⟩ | ⟨pairs, haccepts, -⟩ | ⟨-, hload⟩
      · cases hload.symm.trans h
      · exact ⟨pairs, haccepts⟩
      · cases hload.symm.trans h
    · rintro ⟨pairs, haccepts⟩
      exact ⟨_, load_of_accepts haccepts⟩
  have hmismatch : load words = .error .versionMismatch ↔ Mismatched words := by
    constructor
    · intro h
      rcases load_cases words with ⟨hmismatched, -⟩ | ⟨_, -, hload⟩ | ⟨-, hload⟩
      · exact hmismatched
      · cases hload.symm.trans h
      · cases hload.symm.trans h
    · rintro ⟨first, rest, rfl, hne⟩
      exact load_of_first_ne rest hne
  refine ⟨hok, ?_, hmismatch, ?_, ?_⟩
  · intro s
    constructor
    · intro h
      obtain ⟨pairs, haccepts⟩ := hok.1 ⟨s, h⟩
      rw [load_of_accepts haccepts] at h
      cases h
      exact ⟨pairs, haccepts, get_foldl_usual pairs⟩
    · rintro ⟨pairs, haccepts, hget⟩
      have hs : s = pairs.foldl setPair usual := by
        apply ext_get
        intro which
        rw [hget, get_foldl_usual]
      rw [load_of_accepts haccepts, hs]
  · rw [← hok, ← hmismatch]
    rcases load words with e | s
    · cases e <;> simp
    · simp
  · rintro count pairs rest other rfl hlen
    rw [load_version_count, load_version_count, ← hlen, readPairs_append pairs other rest]

/-- Three pairs, the first of them a scan period of zero that the last one takes back, and two
words more. -/
def resetScan : List UInt16 := [1, 3, 3, 0, 0, 20, 3, 2, 99, 7]

theorem load_resetScan :
    Accepts resetScan [(3, 0), (0, 20), (3, 2)] ∧
      load resetScan = .ok ⟨20000, 30000, 300000, 2000⟩ ∧
      load [1, 3, 3, 0, 0, 20, 3, 2] = load resetScan := by
  have haccepts : Accepts resetScan [(3, 0), (0, 20), (3, 2)] := by
    refine ⟨⟨3, [99, 7], rfl, rfl⟩, ?_, by decide⟩
    simp only [List.forall_mem_cons]
    exact ⟨⟨.scan, rfl⟩, ⟨.debounce, rfl⟩, ⟨.scan, rfl⟩, nofun⟩
  obtain ⟨-, hload, -, -, hrest⟩ := load_grammar resetScan
  refine ⟨haccepts, (hload _).2 ⟨_, haccepts, ?_⟩, ?_⟩
  · intro which
    cases which <;> decide
  · exact hrest 3 [(3, 0), (0, 20), (3, 2)] [99, 7] [] rfl rfl

end Settings
end Chordboard
