import Xv6.Log.Ops

/-!
# Crash atomicity of the log

`Rec K d S` says that recovery of the disk `d` gives the home blocks of `S`: the blocks named in the
header have their contents of `S` in the log, and the other home blocks have them in place.

* `readHead_headBuf`    `read_head` of what `write_head` wrote;
* `Rec.bwrite_home`     an installed block, `Rec.of_blank` an empty header, `Rec.of_logged` the
                        header write that commits;
* `CrashInv`            what the disk, the cache and the header hold in each phase of `commit()`
                        and of `recover_from_log()`;
* `CrashInv.rec`        in every phase the disk recovers to a group commit not older than the last
                        one that has returned;
* `crash_atomicity`     so a completed recovery leaves such a group commit, and recovery completes.
-/

namespace Log
open Run Bytes Function List BitVec Option

/-! ## the header -/

variable {l : List Blockno} {i : Nat} {b : Blockno} {K : Conf} {S d : Nat → Buf} {x : Buf}

theorem get32_putBlocks_below {hb : Buf} {o : Nat} (h : o ≤ 4 * i) :
    get32 (putBlocks hb i l) o = get32 hb o := by
  induction l generalizing hb i with
  | nil => rfl
  | cons b l ih =>
    rw [putBlocks, ih (by omega)]
    exact get32_set32_ne (by omega)

theorem get32_putBlocks (hb : Buf) {j : Nat}
    (h : l[j]? = some b) : get32 (putBlocks hb i l) (4 + 4 * (i + j)) = b := by
  induction l generalizing hb i j with
  | nil => simp at h
  | cons c l ih =>
    cases j with
    | zero =>
      have hc : c = b := by simpa using h
      rw [putBlocks, get32_putBlocks_below (by omega), Nat.add_zero, get32_set32, hc]
    | succ j =>
      have hl : l[j]? = some b := by simpa using h
      have hrec := ih (set32 hb (4 + 4 * i) c) (i := i + 1) hl
      rwa [Nat.add_assoc, Nat.add_comm 1 j] at hrec

theorem readHead_headBuf (hb : Buf) (h : l.length < 2 ^ 31) : readHead (headBuf hb l) = l := by
  have hn : (get32 (headBuf hb l) 0).toInt.toNat = l.length := by
    have hmod : (BitVec.ofNat 32 l.length).toNat = l.length := by
      rw [toNat_ofNat, Nat.mod_eq_of_lt (by omega)]
    rw [headBuf, get32_putBlocks_below (Nat.zero_le _), get32_set32,
      toInt_eq_toNat_of_lt (by omega), hmod, Int.toNat_natCast]
  apply ext_getElem?
  intro i
  rw [readHead, hn, getElem?_map]
  by_cases hi : i < l.length
  · have hb' : l[i]? = some l[i] := getElem?_eq_getElem hi
    have hget := get32_putBlocks (set32 hb 0 (BitVec.ofNat 32 l.length)) (i := 0) hb'
    rw [Nat.zero_add] at hget
    rw [getElem?_range hi, hb', map_some, headBuf, hget]
  · rw [List.getElem?_eq_none (by simpa using hi), List.getElem?_eq_none (by simpa using hi)]
    rfl

/-! ## disks that recover to given contents -/

/-- recovery of the disk `d` gives the home blocks of `S` -/
structure Rec (K : Conf) (d S : Nat → Buf) : Prop where
  home : ∀ b ∈ readHead (d K.start), Home K b.toNat
  fits : (readHead (d K.start)).length < K.size
  logged : ∀ i b, (readHead (d K.start))[i]? = some b → d (K.start + i + 1) = S b.toNat
  rest : ∀ b, Home K b → (∀ c ∈ readHead (d K.start), c.toNat ≠ b) → d b = S b

theorem not_home_start (K : Conf) : ¬ Home K K.start := by
  have := K.size_pos
  unfold Home
  omega

theorem not_home_log (h : l.length < K.size) (hb : l[i]? = some b) : ¬ Home K (K.start + i + 1) := by
  have hi : i < l.length := (List.getElem?_eq_some_iff.mp hb).1
  unfold Home
  omega

theorem update_of_home {a b : Nat} (ha : ¬ Home K a) (hb : Home K b) : update d a x b = d b :=
  update_of_ne (fun e : b = a => ha (e ▸ hb)) _ _

theorem update_home {a b : Nat} (ha : Home K a) (hb : ¬ Home K b) : update d a x b = d b :=
  update_of_ne (fun e : b = a => hb (e ▸ ha)) _ _

theorem Rec.of_blank (hd : readHead (d K.start) = []) (h : ∀ b, Home K b → d b = S b) : Rec K d S := by
  refine ⟨?_, ?_, ?_, fun b hb _ => h b hb⟩
  · rw [hd]
    exact fun b hb => absurd hb not_mem_nil
  · rw [hd]
    exact K.size_pos
  · rw [hd]
    exact fun i b hb => absurd hb (by simp)

theorem Rec.bwrite_home (h : Rec K d S) (hb : (readHead (d K.start))[i]? = some b) :
    Rec K (update d b.toNat (S b.toNat)) S := by
  have hmem : b ∈ readHead (d K.start) := mem_of_getElem? hb
  have hh := h.home b hmem
  have hs : update d b.toNat (S b.toNat) K.start = d K.start :=
    update_home hh (not_home_start K)
  refine ⟨?_, ?_, ?_, ?_⟩
  · rw [hs]
    exact h.home
  · rw [hs]
    exact h.fits
  · rw [hs]
    intro j c hc
    rw [update_home hh (not_home_log h.fits hc), h.logged j c hc]
  · rw [hs]
    intro c hc hn
    rw [update_of_ne (fun e => hn b hmem e.symm), h.rest c hc hn]

theorem Rec.of_logged
    (hx : readHead x = l) (hl : ∀ b ∈ l, Home K b.toNat) (hn : l.length < K.size)
    (hlog : ∀ i b, l[i]? = some b → d (K.start + i + 1) = S b.toNat)
    (hrest : ∀ b, Home K b → (∀ c ∈ l, c.toNat ≠ b) → d b = S b) :
    Rec K (update d K.start x) S := by
  have hs : update d K.start x K.start = x := update_self _ _ _
  refine ⟨?_, ?_, ?_, ?_⟩
  · rwa [hs, hx]
  · rwa [hs, hx]
  · rw [hs, hx]
    intro i b hb
    rw [update_of_ne (by omega), hlog i b hb]
  · rw [hs, hx]
    intro b hb hc
    rw [update_of_home (not_home_start K) hb, hrest b hb hc]

/-! ## the phases -/

/-- between commits: the disk has the last commit, the cache differs on the logged blocks only -/
structure Settled (K : Conf) (s : State) (S : Nat → Buf) : Prop where
  blank : readHead (s.disk K.start) = []
  snap : s.snaps[s.returned]? = some S
  last : s.returned + 1 = s.snaps.length
  disk : ∀ b, Home K b → s.disk b = S b
  cache : ∀ b, Home K b → (∀ c ∈ s.lh, c.toNat ≠ b) → s.cache b = S b
  home : ∀ b ∈ s.lh, Home K b.toNat
  fits : s.lh.length < K.size
  small : s.lh.length ≤ LOGSIZE

/-- `write_log` has written `n` blocks of the commit `T` -/
structure Logging (K : Conf) (s : State) (n : Nat) (S T : Nat → Buf) : Prop where
  blank : readHead (s.disk K.start) = []
  snap : s.snaps[s.returned]? = some S
  next : s.snaps[s.returned + 1]? = some T
  last : s.returned + 2 = s.snaps.length
  disk : ∀ b, Home K b → s.disk b = S b
  cache : ∀ b, Home K b → s.cache b = T b
  same : ∀ b, Home K b → (∀ c ∈ s.lh, c.toNat ≠ b) → T b = S b
  written : ∀ i b, i < n → s.lh[i]? = some b →
    s.disk (K.start + i + 1) = T b.toNat ∧ s.cache (K.start + i + 1) = T b.toNat
  home : ∀ b ∈ s.lh, Home K b.toNat
  fits : s.lh.length < K.size
  small : s.lh.length ≤ LOGSIZE

/-- `install_trans` has written `n` home blocks of the commit `T`, the `k`-th one -/
structure Installing (K : Conf) (s : State) (n k : Nat) (T : Nat → Buf) : Prop where
  head : s.lh = readHead (s.disk K.start)
  recov : Rec K s.disk T
  snap : s.snaps[k]? = some T
  returned : s.returned ≤ k
  cacheLog : ∀ i b, s.lh[i]? = some b → s.cache (K.start + i + 1) = T b.toNat
  cache : ∀ b, Home K b → (∀ c ∈ s.lh, c.toNat ≠ b) → s.cache b = T b
  installed : ∀ i b, i < n → s.lh[i]? = some b → s.disk b.toNat = T b.toNat ∧ s.cache b.toNat = T b.toNat

/-- all is in place, the header is still to be erased -/
structure Installed (K : Conf) (s : State) (k : Nat) (T : Nat → Buf) : Prop where
  empty : s.lh = []
  recov : Rec K s.disk T
  snap : s.snaps[k]? = some T
  returned : s.returned ≤ k
  disk : ∀ b, Home K b → s.disk b = T b
  cache : ∀ b, Home K b → s.cache b = T b

/-- what holds in each phase -/
def CrashInv (K : Conf) (s : State) : Prop :=
  match s.phase with
  | .run => ∃ S, Settled K s S
  | .writeLog n => ∃ S T, Logging K s n S T
  | .writeHead => ∃ S T, Logging K s s.lh.length S T
  | .install n => ∃ k T, Installing K s n k T ∧ k + 1 = s.snaps.length
  | .clear => ∃ k T, Installed K s k T ∧ k + 1 = s.snaps.length
  | .done => ∃ S, Settled K s S ∧ s.lh = []
  | .readHead => ∃ k T, s.snaps[k]? = some T ∧ s.returned ≤ k ∧ Rec K s.disk T ∧ s.cache = s.disk
  | .recInstall n => ∃ k T, Installing K s n k T
  | .recClear => ∃ k T, Installed K s k T
  | .recovered => ∃ k T, Installed K s k T ∧ readHead (s.disk K.start) = []

/-- in every phase the disk recovers to a commit that is not older than the last returned one -/
theorem CrashInv.rec {s : State} (h : CrashInv K s) :
    ∃ k T, s.snaps[k]? = some T ∧ s.returned ≤ k ∧ Rec K s.disk T := by
  unfold CrashInv at h
  cases hp : s.phase with
  | run =>
    rw [hp] at h
    obtain ⟨S, h⟩ := h
    exact ⟨_, S, h.snap, Nat.le_refl _, Rec.of_blank h.blank h.disk⟩
  | writeLog n | writeHead =>
    rw [hp] at h
    obtain ⟨S, T, h⟩ := h
    exact ⟨_, S, h.snap, Nat.le_refl _, Rec.of_blank h.blank h.disk⟩
  | install n | clear | recovered =>
    rw [hp] at h
    obtain ⟨k, T, h, -⟩ := h
    exact ⟨k, T, h.snap, h.returned, h.recov⟩
  | done =>
    rw [hp] at h
    obtain ⟨S, h, -⟩ := h
    exact ⟨_, S, h.snap, Nat.le_refl _, Rec.of_blank h.blank h.disk⟩
  | readHead =>
    rw [hp] at h
    obtain ⟨k, T, hk, hr, h, -⟩ := h
    exact ⟨k, T, hk, hr, h⟩
  | recInstall n | recClear =>
    rw [hp] at h
    obtain ⟨k, T, h⟩ := h
    exact ⟨k, T, h.snap, h.returned, h.recov⟩

/-! ## operations -/

section
variable {K : Conf} {s s' : State} {S T : Nat → Buf} {i n k : Nat}

theorem Settled.logWrite {b : Blockno} {d : Buf} (h : Settled K s S)
    (hs : logWrite K s i b d = .next s') : Settled K s' S := by
  obtain ⟨l, -, hb, hsmall, hfits, rfl⟩ := logWrite_next hs
  have hlen := (length_absorb_le s.lh b).2
  refine ⟨h.blank, h.snap, h.last, h.disk, fun c hc hn => ?_, fun c hc => ?_, ?_, ?_⟩
  · have hcb : c ≠ b.toNat := fun e => hn b (mem_absorb.mpr (.inr rfl)) e.symm
    show update s.cache b.toNat d c = S c
    rw [update_of_ne hcb]
    exact h.cache c hc fun x hx => hn x (mem_absorb.mpr (.inl hx))
  · rcases mem_absorb.mp hc with hc | rfl
    · exact h.home c hc
    · exact hb
  · show (absorb s.lh b).length < K.size
    omega
  · show (absorb s.lh b).length ≤ LOGSIZE
    omega

theorem Settled.endOp (h : Settled K s S) (hrun : s.phase = .run) (hs : endOp s i = .next s') :
    CrashInv K s' := by
  obtain ⟨l, -, -, ⟨-, rfl⟩ | ⟨-, rfl⟩⟩ := endOp_next hs
  · simp only [hrun]
    exact ⟨S, h.blank, h.snap, h.last, h.disk, h.cache, h.home, h.fits, h.small⟩
  have hlt : s.returned < s.snaps.length := by rw [← h.last]; exact Nat.lt_succ_self _
  have hold : (s.snaps ++ [s.cache])[s.returned]? = some S := by
    rw [getElem?_append_left hlt, h.snap]
  have hnew : (s.snaps ++ [s.cache])[s.snaps.length]? = some s.cache := by simp
  have hlen : (s.snaps ++ [s.cache]).length = s.snaps.length + 1 := by simp
  by_cases hl : 0 < s.lh.length
  · simp only [if_pos hl]
    refine ⟨S, s.cache, h.blank, ?_, ?_, ?_, h.disk, fun _ _ => rfl, h.cache, ?_, h.home, h.fits,
      h.small⟩
    · simpa only [if_pos hl] using hold
    · simpa only [if_pos hl, h.last] using hnew
    · simp only [hlen, ← h.last]
    · exact fun j b hj => absurd hj (Nat.not_lt_zero j)
  · simp only [if_neg hl]
    have hnil : s.lh = [] := length_eq_zero_iff.mp (by omega)
    refine ⟨s.cache, ⟨h.blank, ?_, ?_, fun b hb => ?_, fun _ _ _ => rfl, h.home, h.fits, h.small⟩,
      hnil⟩
    · simpa only [if_neg hl] using hnew
    · simp only [hlen]
    · rw [h.disk b hb, h.cache b hb (by simp [hnil])]

/-! ## the steps of a commit and of a recovery -/

theorem Logging.write {b : Blockno} (h : Logging K s n S T) (hb : s.lh[n]? = some b) :
    Logging K { s.bwrite (K.start + n + 1) (s.cache b.toNat) with phase := .writeLog (n + 1) }
      (n + 1) S T := by
  have hnot : ¬ Home K (K.start + n + 1) := not_home_log h.fits hb
  have hne : K.start ≠ K.start + n + 1 := by omega
  have hcb : s.cache b.toNat = T b.toNat := h.cache _ (h.home b (mem_of_getElem? hb))
  refine ⟨?_, h.snap, h.next, h.last, fun c hc => ?_, fun c hc => ?_, h.same, fun j c hj hc => ?_,
    h.home, h.fits, h.small⟩
  · show Log.readHead (update s.disk _ _ K.start) = []
    rw [update_of_ne hne, h.blank]
  · show update s.disk _ _ c = S c
    rw [update_of_home hnot hc, h.disk c hc]
  · show update s.cache _ _ c = T c
    rw [update_of_home hnot hc, h.cache c hc]
  · show update s.disk _ _ _ = _ ∧ update s.cache _ _ _ = _
    by_cases e : j = n
    · subst e
      have hcb' : c = b := some.inj (hc.symm.trans hb)
      rw [update_self, update_self, hcb, hcb']
      exact ⟨rfl, rfl⟩
    · have hne' : K.start + j + 1 ≠ K.start + n + 1 := by omega
      rw [update_of_ne hne', update_of_ne hne']
      exact h.written j c (by omega) hc

theorem Logging.written_all (h : Logging K s n S T) (hn : s.lh[n]? = none) :
    Logging K { s with phase := .writeHead } s.lh.length S T := by
  have hle : s.lh.length ≤ n := getElem?_eq_none_iff.mp hn
  exact ⟨h.blank, h.snap, h.next, h.last, h.disk, h.cache, h.same,
    fun j c hj hc => h.written j c (Nat.lt_of_lt_of_le hj hle) hc, h.home, h.fits, h.small⟩

theorem small_lt {l : List Blockno} (h : l.length ≤ LOGSIZE) : l.length < 2 ^ 31 :=
  Nat.lt_of_le_of_lt h (by decide)

theorem Logging.commit (h : Logging K s s.lh.length S T) :
    Installing K { writeHead K s with phase := .install 0 } 0 (s.returned + 1) T := by
  have hhead : readHead (headBuf (s.cache K.start) s.lh) = s.lh :=
    readHead_headBuf _ (small_lt h.small)
  have hlog : ∀ j c, s.lh[j]? = some c →
      s.disk (K.start + j + 1) = T c.toNat ∧ s.cache (K.start + j + 1) = T c.toNat :=
    fun j c hc => h.written j c (List.getElem?_eq_some_iff.mp hc).1 hc
  refine ⟨?_, ?_, h.next, Nat.le_succ _, fun j c hc => ?_, fun c hc hn => ?_, ?_⟩
  · show s.lh = Log.readHead (update s.disk _ _ K.start)
    rw [update_self, hhead]
  · refine Rec.of_logged hhead h.home h.fits (fun j c hc => (hlog j c hc).1) fun c hc hn => ?_
    rw [h.disk c hc, h.same c hc hn]
  · show update s.cache _ _ _ = _
    rw [update_of_ne (by omega), (hlog j c hc).2]
  · show update s.cache _ _ _ = _
    rw [update_of_home (not_home_start K) hc, h.cache c hc]
  · exact fun j c hj => absurd hj (Nat.not_lt_zero j)

variable {p : Phase}

theorem Installing.write {b : Blockno} (h : Installing K s n k T) (hb : s.lh[n]? = some b) :
    Installing K { s.bwrite b.toNat (s.cache (K.start + n + 1)) with phase := p } (n + 1) k T := by
  have hrec := h.recov
  have hhome : Home K b.toNat := hrec.home b (h.head ▸ mem_of_getElem? hb)
  have hfits : s.lh.length < K.size := h.head ▸ hrec.fits
  rw [h.cacheLog n b hb]
  refine ⟨?_, ?_, h.snap, h.returned, fun j c hc => ?_, fun c hc hn => ?_, fun j c hj hc => ?_⟩
  · show s.lh = Log.readHead (update s.disk _ _ K.start)
    rw [update_home hhome (not_home_start K), ← h.head]
  · exact hrec.bwrite_home (h.head ▸ hb)
  · show update s.cache _ _ _ = _
    rw [update_home hhome (not_home_log hfits hc), h.cacheLog j c hc]
  · show update s.cache _ _ _ = _
    rw [update_of_ne (fun e => hn b (mem_of_getElem? hb) e.symm), h.cache c hc hn]
  · show update s.disk _ _ _ = _ ∧ update s.cache _ _ _ = _
    by_cases e : c.toNat = b.toNat
    · rw [e, update_self, update_self]
      exact ⟨rfl, rfl⟩
    rw [update_of_ne e, update_of_ne e]
    refine h.installed j c ?_ hc
    have hjn : j ≠ n := by
      intro hjn
      rw [hjn] at hc
      exact e (congrArg BitVec.toNat (Option.some.inj (hc.symm.trans hb)))
    omega

theorem Installing.finish (h : Installing K s n k T) (hn : s.lh[n]? = none) :
    Installed K { s with lh := [], phase := p } k T := by
  have hle : s.lh.length ≤ n := getElem?_eq_none_iff.mp hn
  have hall : ∀ b, Home K b → s.disk b = T b ∧ s.cache b = T b := by
    intro b hb
    by_cases hm : ∃ c ∈ s.lh, c.toNat = b
    · obtain ⟨c, hc, rfl⟩ := hm
      obtain ⟨j, hj⟩ := mem_iff_getElem?.mp hc
      have hjl : j < s.lh.length := (List.getElem?_eq_some_iff.mp hj).1
      exact h.installed j c (Nat.lt_of_lt_of_le hjl hle) hj
    · have hm' : ∀ c ∈ s.lh, c.toNat ≠ b := fun c hc e => hm ⟨c, hc, e⟩
      exact ⟨h.recov.rest b hb (h.head ▸ hm'), h.cache b hb hm'⟩
  exact ⟨rfl, h.recov, h.snap, h.returned, fun b hb => (hall b hb).1, fun b hb => (hall b hb).2⟩

theorem Installed.erase (h : Installed K s k T) : Installed K { writeHead K s with phase := p } k T ∧
      readHead ((writeHead K s).disk K.start) = [] := by
  have hblank : readHead ((writeHead K s).disk K.start) = [] := by
    show Log.readHead (update s.disk _ _ K.start) = []
    rw [update_self, h.empty]
    exact readHead_headBuf _ (by decide)
  have hdisk : ∀ b, Home K b → (writeHead K s).disk b = T b := fun b hb =>
    (update_of_home (not_home_start K) hb).trans (h.disk b hb)
  have hcache : ∀ b, Home K b → (writeHead K s).cache b = T b := fun b hb =>
    (update_of_home (not_home_start K) hb).trans (h.cache b hb)
  exact ⟨⟨h.empty, Rec.of_blank hblank hdisk, h.snap, h.returned, hdisk, hcache⟩, hblank⟩

theorem Installed.settled {r : Nat} (h : Installed K s k T) (hb : readHead (s.disk K.start) = [])
    (hr : r = k) (hk : k + 1 = s.snaps.length) : Settled K { s with returned := r } T := by
  subst hr
  refine ⟨hb, h.snap, hk, h.disk, fun b hb' _ => h.cache b hb', ?_, ?_, ?_⟩
  · rw [h.empty]
    exact fun b hb' => absurd hb' not_mem_nil
  · rw [h.empty]
    exact K.size_pos
  · rw [h.empty]
    exact Nat.zero_le _

theorem CrashInv.io (h : CrashInv K s) (hs : io K s = .next s') : CrashInv K s' := by
  unfold CrashInv at h
  cases io_next hs with
  | writeLog hp hb =>
    rw [hp] at h
    obtain ⟨S, T, h⟩ := h
    exact ⟨S, T, h.write hb⟩
  | logWritten hp hb =>
    rw [hp] at h
    obtain ⟨S, T, h⟩ := h
    exact ⟨S, T, h.written_all hb⟩
  | writeHead hp =>
    rw [hp] at h
    obtain ⟨S, T, h⟩ := h
    exact ⟨_, T, h.commit, h.last⟩
  | install hp hb =>
    rw [hp] at h
    obtain ⟨k, T, h, hk⟩ := h
    exact ⟨k, T, h.write hb, hk⟩
  | installed hp hb =>
    rw [hp] at h
    obtain ⟨k, T, h, hk⟩ := h
    exact ⟨k, T, h.finish hb, hk⟩
  | clear hp =>
    rw [hp] at h
    obtain ⟨k, T, h, hk⟩ := h
    obtain ⟨he, hblank⟩ := h.erase (p := .done)
    exact ⟨T, he.settled hblank (by omega) hk, h.empty⟩
  | done hp =>
    rw [hp] at h
    obtain ⟨S, h, -⟩ := h
    exact ⟨S, h.blank, h.snap, h.last, h.disk, h.cache, h.home, h.fits, h.small⟩
  | readHead hp =>
    rw [hp] at h
    obtain ⟨k, T, hk, hr, h, hc⟩ := h
    refine ⟨k, T, ?_, h, hk, hr, fun i b hb => ?_, fun b hb hn => ?_,
      fun i b hi => absurd hi (Nat.not_lt_zero i)⟩
    · rw [hc]
    · have hb' : (Log.readHead (s.cache K.start))[i]? = some b := hb
      rw [hc] at hb' ⊢
      exact h.logged i b hb'
    · have hn' : ∀ c ∈ Log.readHead (s.cache K.start), c.toNat ≠ b := hn
      rw [hc] at hn' ⊢
      exact h.rest b hb hn'
  | recInstall hp hb =>
    rw [hp] at h
    obtain ⟨k, T, h⟩ := h
    exact ⟨k, T, h.write hb⟩
  | recInstalled hp hb =>
    rw [hp] at h
    obtain ⟨k, T, h⟩ := h
    exact ⟨k, T, h.finish hb⟩
  | recClear hp =>
    rw [hp] at h
    obtain ⟨k, T, h⟩ := h
    exact ⟨k, T, h.erase⟩
  | recovered hp =>
    rw [hp] at h
    obtain ⟨k, T, h, hblank⟩ := h
    have hd : Installed K { s with phase := .run, snaps := [s.disk], returned := 0 } 0 s.disk :=
      ⟨h.empty, Rec.of_blank hblank fun _ _ => rfl, rfl, Nat.le_refl _, fun _ _ => rfl,
        fun b hb => (h.cache b hb).trans (h.disk b hb).symm⟩
    exact ⟨s.disk, hd.settled hblank rfl rfl⟩

/-! ## runs -/

theorem CrashInv.next {e : Event} (h : CrashInv K s ∧ ∃ A, OpsInv s A)
    (hs : step K s e = .next s') : CrashInv K s' ∧ ∃ A, OpsInv s' A := by
  obtain ⟨h, A, ho⟩ := h
  refine ⟨?_, ho.next hs⟩
  cases e with
  | beginOp i =>
    have hp : s.phase = .run := (ho.beginOp hs).2.1
    obtain ⟨-, -, -, -, rfl⟩ := beginOp_next hs
    unfold CrashInv at h ⊢
    simp only [hp] at h ⊢
    obtain ⟨S, h⟩ := h
    exact ⟨S, h.blank, h.snap, h.last, h.disk, h.cache, h.home, h.fits, h.small⟩
  | logWrite i b d =>
    obtain ⟨l, hop, -, -, -, hs'⟩ := logWrite_next hs
    have hp : s.phase = .run := ho.run_of_some hop
    have hp' : s'.phase = .run := by rw [hs', ← hp]
    unfold CrashInv at h ⊢
    rw [hp] at h
    rw [hp']
    obtain ⟨S, h⟩ := h
    exact ⟨S, h.logWrite hs⟩
  | endOp i =>
    obtain ⟨l, hop, -⟩ := endOp_next hs
    have hp : s.phase = .run := ho.run_of_some hop
    unfold CrashInv at h
    rw [hp] at h
    obtain ⟨S, h⟩ := h
    exact h.endOp hp hs
  | io => exact h.io hs
  | crash =>
    cases hs
    obtain ⟨k, T, hk, hr, hrec⟩ := h.rec
    exact ⟨k, T, hk, hr, hrec, rfl⟩

theorem CrashInv.start {d : Nat → Buf} (hd : readHead (d K.start) = []) : CrashInv K (init d) := by
  refine ⟨d, hd, rfl, rfl, fun _ _ => rfl, fun _ _ _ => rfl, ?_, K.size_pos, Nat.zero_le _⟩
  exact fun b hb => absurd hb not_mem_nil

theorem exec_io {t : State} (h : io K s = .next t) (hn : ∃ n u, exec (step K) t
    (List.replicate n .io) = .next u ∧ u.phase = .recovered) :
    ∃ n u, exec (step K) s (List.replicate n .io) = .next u ∧ u.phase = .recovered := by
  obtain ⟨n, u, hu, hp⟩ := hn
  refine ⟨n + 1, u, ?_, hp⟩
  rw [List.replicate_succ, exec_cons_next (show step K s .io = .next t from h), hu]

/-- `recover_from_log()` comes to its end from wherever it stands -/
theorem recInstall_completes (m n : Nat) (s : State) (hm : s.lh.length = n + m)
    (hp : s.phase = .recInstall n) :
    ∃ j u, exec (step K) s (List.replicate j .io) = .next u ∧ u.phase = .recovered := by
  induction m generalizing n s with
  | zero =>
    have hb : s.lh[n]? = none := getElem?_eq_none (by omega)
    refine exec_io (t := { s with lh := [], phase := .recClear }) ?_ ⟨1, _, rfl, rfl⟩
    simp only [io, hp, installStep, hb]
  | succ m ih =>
    have hb : s.lh[n]? = some s.lh[n] := getElem?_eq_getElem (by omega)
    refine exec_io (t := { s.bwrite (s.lh[n]).toNat (s.cache (K.start + n + 1)) with
      phase := .recInstall (n + 1) }) ?_ (ih (n + 1) _ (by simp only [State.bwrite]; omega) rfl)
    simp only [io, hp, installStep, hb]

theorem recovery_completes (s : State) :
    ∃ n u, exec (step K) (crash s) (List.replicate n .io) = .next u ∧ u.phase = .recovered := by
  refine exec_io rfl ?_
  exact recInstall_completes _ 0 _ (Nat.zero_add _).symm rfl

end

/-- **Crash atomicity.**  Wherever a run of operations, commits, crashes and recoveries has come to
the end of a `recover_from_log()`, the home blocks are those of a group commit that is not older
than the last one whose `commit()` had returned; and a recovery that is not cut short by a crash
comes to its end. -/
theorem crash_atomicity (K : Conf) (d : Nat → Buf) (hd : readHead (d K.start) = [])
    (es : List Event) (s : State) (h : exec (step K) (init d) es = .next s) :
    (s.phase = .recovered →
      ∃ k S, s.returned ≤ k ∧ s.snaps[k]? = some S ∧ ∀ b, Home K b → s.disk b = S b) ∧
    ∃ n u, exec (step K) (crash s) (List.replicate n .io) = .next u ∧ u.phase = .recovered := by
  refine ⟨fun hp => ?_, recovery_completes s⟩
  have hinv : CrashInv K s ∧ ∃ A, OpsInv s A :=
    exec_inv (fun s => CrashInv K s ∧ ∃ A, OpsInv s A)
      (fun s e s' hi _ hs => CrashInv.next hi hs) ⟨CrashInv.start hd, ∅, OpsInv.start d⟩
      (along_of_forall (fun _ _ => trivial) _ _) h
  have hi := hinv.1
  unfold CrashInv at hi
  rw [hp] at hi
  obtain ⟨k, S, hk, -⟩ := hi
  exact ⟨k, S, hk.returned, hk.snap, hk.disk⟩

/-- a crash right after the header write: the commit that had not returned survives -/
def crashRun : List Event :=
  [.beginOp 0, .logWrite 0 100 (fun _ => 1), .endOp 0, .io, .io, .io, .crash, .io, .io, .crash, .io,
    .io, .io, .io]

theorem crash_atomicity_crashRun :
    ∃ s, exec (step mkfsConf) (init fun _ _ => 0) crashRun = .next s ∧ s.phase = .recovered ∧
      ∃ k S, s.returned ≤ k ∧ s.snaps[k]? = some S ∧ ∀ b, Home mkfsConf b → s.disk b = S b := by
  obtain ⟨s, hs, hp⟩ := exists_of_check (p := fun s : State => s.phase = .recovered)
    (o := exec (step mkfsConf) (init fun _ _ => 0) crashRun) (by decide +kernel)
  exact ⟨s, hs, hp, (crash_atomicity mkfsConf (fun _ _ => 0) (by decide +kernel) crashRun s hs).1 hp⟩

end Log
