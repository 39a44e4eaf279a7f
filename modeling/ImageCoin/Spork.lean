import ImageCoin.Transaction

/-!
# Sporks

A spork message carries an identifier, a value and a signing time.
-/

namespace ImageCoin

open List Nat Function
variable (n : ℕ)

def decimalDigits : List Char :=
  if n = 0 then ['0'] else ((digits 10 n).map digitChar).reverse

def lexicalCast (n : ℤ) : List Char :=
  if n < 0 then '-' :: decimalDigits n.natAbs else decimalDigits n.natAbs

structure SporkContent where
  nSporkID : Int32
  nValue : Int64
  nTimeSigned : Int64
  deriving DecidableEq

def SporkContent.strMessage (c : SporkContent) : List Char :=
  lexicalCast c.nSporkID.toInt ++ lexicalCast c.nValue.toInt ++ lexicalCast c.nTimeSigned.toInt

structure CSporkMessage extends SporkContent where
  vchSig : Bytes
  deriving DecidableEq

def CSporkMessage.hashedBytes (spork : CSporkMessage) : Bytes :=
  serializeInt32 spork.nSporkID ++
    (serializeAmount spork.nValue ++ serializeAmount spork.nTimeSigned)

/-- What is fixed while messages arrive. -/
structure SporkEnv where
  fLiteMode : Bool
  /-- `CHashWriter` -/
  hash : Bytes → UInt256
  /-- `CMessageSigner::VerifyMessage` with the public spork key -/
  verifyMessage : Bytes → List Char → Bool

structure CSporkManager where
  mapSporks : UInt256 → Option CSporkMessage
  mapSporksActive : Int32 → Option CSporkMessage

open CSporkManager

/-- What becomes of a message. -/
inductive SporkResult where
  | ignored
  | seen
  | invalidSignature
  | stored
  deriving DecidableEq, Repr

def CSporkManager.initial : CSporkManager := ⟨fun _ => none, fun _ => none⟩

section
variable (env : SporkEnv)

def CSporkMessage.checkSignature (spork : CSporkMessage) : Bool :=
  env.verifyMessage spork.vchSig spork.strMessage

variable (s : CSporkManager)

/-- Whether a spork with the identifier is active that was not signed earlier. -/
def CSporkManager.seenAlready (spork : CSporkMessage) : Bool :=
  match s.mapSporksActive spork.nSporkID with
  | some active => decide (spork.nTimeSigned ≤ active.nTimeSigned)
  | none => false

/-- `ProcessSpork` of a `SPORK` message; `hasTip` says whether there is an active
chain. -/
def CSporkManager.processSpork (hasTip : Bool)
    (spork : CSporkMessage) : SporkResult × CSporkManager :=
  if env.fLiteMode then (.ignored, s)
  else if !hasTip then (.ignored, s)
  else if s.seenAlready spork then (.seen, s)
  else if !spork.checkSignature env then (.invalidSignature, s)
  else
    (.stored,
      { mapSporks :=
          update s.mapSporks (env.hash spork.hashedBytes) (some spork)
        mapSporksActive :=
          update s.mapSporksActive spork.nSporkID (some spork) })

def CSporkManager.processSporks (messages : List (Bool × CSporkMessage)) : CSporkManager :=
  messages.foldl (fun s message => (s.processSpork env message.1 message.2).2) s

end

def ofDecimalDigits (digits : List Char) : ℕ :=
  ofDigits 10 (digits.reverse.map fun c => c.toNat - 48)

theorem ofDecimalDigits_decimalDigits : ofDecimalDigits (decimalDigits n) = n := by
  unfold decimalDigits
  split_ifs with hzero
  · subst hzero
    rfl
  · have hdigits : ((digits 10 n).map digitChar).map (fun c => c.toNat - 48) = digits 10 n := by
      rw [map_map]
      conv_rhs => rw [← map_id (digits 10 n)]
      apply map_congr_left
      intro d hd
      have hlt : d < 10 := digits_lt_base (by omega) hd
      simp [toNat_digitChar_of_lt_ten hlt]
    rw [ofDecimalDigits, reverse_reverse, hdigits, ofDigits_digits]

theorem head_decimalDigits_ne (rest : List Char) : decimalDigits n ≠ '-' :: rest := by
  intro heq
  have hmem : '-' ∈ decimalDigits n := by simp [heq]
  unfold decimalDigits at hmem
  split_ifs at hmem
  · simp at hmem
  · rw [mem_reverse, mem_map] at hmem
    obtain ⟨d, hd, hchar⟩ := hmem
    have hlt : d < 10 := digits_lt_base (by omega) hd
    have hnat := toNat_digitChar_of_lt_ten hlt
    rw [hchar] at hnat
    have hminus : '-'.toNat = 45 := rfl
    omega

theorem lexicalCast_injective : Function.Injective lexicalCast := by
  have hinj := Function.LeftInverse.injective ofDecimalDigits_decimalDigits
  intro a b heq
  unfold lexicalCast at heq
  split_ifs at heq with ha hb hb
  · have habs := hinj (cons.inj heq).2
    omega
  · exact absurd heq.symm (head_decimalDigits_ne _ _)
  · exact absurd heq (head_decimalDigits_ne _ _)
  · have habs := hinj heq
    omega

/-- Identifiers and signing times are written with equally many characters. -/
def SameShape (a b : SporkContent) : Prop :=
  (lexicalCast a.nSporkID.toInt).length = (lexicalCast b.nSporkID.toInt).length ∧
    (lexicalCast a.nTimeSigned.toInt).length = (lexicalCast b.nTimeSigned.toInt).length

theorem eq_of_strMessage_eq {a b : SporkContent} (hshape : SameShape a b)
    (heq : a.strMessage = b.strMessage) : a = b := by
  obtain ⟨hid, htime⟩ := hshape
  obtain ⟨hfront, htime⟩ := append_inj' heq htime
  obtain ⟨hid, hvalue⟩ := append_inj hfront hid
  cases a
  cases b
  rw [SporkContent.mk.injEq]
  exact ⟨Int32.toInt_inj.mp (lexicalCast_injective hid),
    Int64.toInt_inj.mp (lexicalCast_injective hvalue),
    Int64.toInt_inj.mp (lexicalCast_injective htime)⟩

/-- A signature is right only for the text of a message that the key signed. -/
def Unforgeable (env : SporkEnv) (signed : Set SporkContent) : Prop :=
  ∀ vchSig message, env.verifyMessage vchSig message → ∃ c ∈ signed, message = c.strMessage

/-- Every active spork is one that the key signed. -/
def Authentic (signed : Set SporkContent) (s : CSporkManager) : Prop :=
  ∀ nSporkID spork, s.mapSporksActive nSporkID = some spork → spork.toSporkContent ∈ signed

section
variable {env : SporkEnv} {signed : Set SporkContent}

theorem Authentic.processSpork (hunforgeable : Unforgeable env signed)
    {s : CSporkManager} (hs : Authentic signed s) (hasTip : Bool) {spork : CSporkMessage}
    (hshape : ∀ c ∈ signed, SameShape spork.toSporkContent c) :
    Authentic signed (s.processSpork env hasTip spork).2 := by
  unfold CSporkManager.processSpork
  split_ifs with hlite htip hseen hcheck
  · exact hs
  · exact hs
  · exact hs
  · exact hs
  · have hverify : env.verifyMessage spork.vchSig spork.strMessage := by
      simpa [CSporkMessage.checkSignature] using hcheck
    obtain ⟨c, hc, hmessage⟩ := hunforgeable _ _ hverify
    have hsame := eq_of_strMessage_eq (hshape c hc) hmessage
    intro nSporkID active hactive
    dsimp only at hactive
    by_cases hid : nSporkID = spork.nSporkID
    · subst hid
      rw [update_self] at hactive
      obtain rfl := Option.some.inj hactive
      rwa [hsame]
    · rw [update_of_ne hid] at hactive
      exact hs nSporkID active hactive

theorem Authentic.processSporks (hunforgeable : Unforgeable env signed)
    (messages : List (Bool × CSporkMessage)) :
    ∀ {s : CSporkManager}, Authentic signed s → (∀ message ∈ messages, ∀ c ∈ signed,
        SameShape message.2.toSporkContent c) →
      Authentic signed (s.processSporks env messages) := by
  induction messages with
  | nil => exact fun hs _ => hs
  | cons message rest ih =>
    intro s hs hshape
    have hfirst := hs.processSpork hunforgeable message.1 (hshape message mem_cons_self)
    exact ih hfirst fun later hlater => hshape later (mem_cons_of_mem _ hlater)

end

/-- In every run whose messages write identifier and signing time with as many
characters as the signed contents do, every active spork was signed; and
contents of one shape are told apart by the string that is signed. -/
theorem processSporks_authentic (env : SporkEnv) (signed : Set SporkContent)
    (hunforgeable : Unforgeable env signed) (messages : List (Bool × CSporkMessage))
    (hshape : ∀ message ∈ messages, ∀ c ∈ signed, SameShape message.2.toSporkContent c) :
    (∀ count, Authentic signed (initial.processSporks env (messages.take count))) ∧
    ∀ a b : SporkContent, SameShape a b → a ≠ b → a.strMessage ≠ b.strMessage := by
  constructor
  · intro count
    have hinitial : Authentic signed initial :=
      fun _ _ h => nomatch h
    exact hinitial.processSporks hunforgeable _ fun message hmessage =>
      hshape message (List.mem_of_mem_take hmessage)
  · intro a b hsame hne heq
    exact hne (eq_of_strMessage_eq hsame heq)

def signedSpork : SporkContent := ⟨10009, 4070908800, 1530000000⟩

/-- The same digits, divided otherwise: spork 10 on, signed far in the future. -/
def forgedSpork : SporkContent := ⟨10009, 4070908, 8001530000000⟩

def oneSignature : SporkEnv where
  fLiteMode := false
  hash bytes := BitVec.ofNat 256 (ByteStream.leNat bytes)
  verifyMessage _ message := decide (message = signedSpork.strMessage)

theorem unforgeable_oneSignature : Unforgeable oneSignature {signedSpork} :=
  fun _ _ hverify => ⟨signedSpork, rfl, of_decide_eq_true hverify⟩

/-- Two values that nobody signed, before and after the signed one. -/
def mixedSporks : List (Bool × CSporkMessage) :=
  [(true, ⟨⟨10009, 1, 1520000000⟩, []⟩), (true, ⟨signedSpork, []⟩),
    (true, ⟨⟨10009, 2, 1540000000⟩, []⟩)]

theorem processSporks_authentic_mixed :
    (∀ count, Authentic {signedSpork}
      (initial.processSporks oneSignature (mixedSporks.take count))) ∧
    (initial.processSporks oneSignature mixedSporks).mapSporksActive 10009 =
      some ⟨signedSpork, []⟩ := by
  refine ⟨(processSporks_authentic oneSignature {signedSpork} unforgeable_oneSignature mixedSporks
    ?_).1, by decide +kernel⟩
  rintro message hmessage c rfl
  simp only [mixedSporks, mem_cons, not_mem_nil, or_false] at hmessage
  rcases hmessage with rfl | rfl | rfl <;> exact ⟨rfl, rfl⟩

/-- With the signature of one content another one becomes active. -/
theorem forgedSpork_active : Unforgeable oneSignature {signedSpork} ∧ forgedSpork ≠ signedSpork ∧
      forgedSpork.strMessage = signedSpork.strMessage ∧
      (initial.processSporks oneSignature
        [(true, ⟨signedSpork, []⟩), (true, ⟨forgedSpork, []⟩)]).mapSporksActive
          10009 = some ⟨forgedSpork, []⟩ :=
  ⟨unforgeable_oneSignature, by decide +kernel⟩

section
variable (env : SporkEnv) (messages : List (Bool × CSporkMessage)) (nSporkID : Int32)

/-- The messages that can become active under an identifier. -/
def validSporks : List CSporkMessage :=
  (messages.filter fun message => !env.fLiteMode && message.1 &&
    message.2.checkSignature env && message.2.nSporkID = nSporkID).map Prod.snd

theorem processSpork_active (s : CSporkManager) (hasTip : Bool) (spork : CSporkMessage) :
    (s.processSpork env hasTip spork).2.mapSporksActive nSporkID =
      if !env.fLiteMode && hasTip && spork.checkSignature env && spork.nSporkID = nSporkID then
        some ((s.mapSporksActive nSporkID).elim spork fun active =>
          if active.nTimeSigned.toInt < spork.nTimeSigned.toInt then spork else active)
      else s.mapSporksActive nSporkID := by
  by_cases hid : spork.nSporkID = nSporkID
  · subst hid
    unfold processSpork seenAlready
    cases hactive : s.mapSporksActive spork.nSporkID with
    | none => split_ifs <;> simp_all
    | some active =>
      have htime := Int64.le_iff_toInt_le (x := spork.nTimeSigned) (y := active.nTimeSigned)
      split_ifs <;> simp_all
  · have hne : update s.mapSporksActive spork.nSporkID (some spork) nSporkID =
        s.mapSporksActive nSporkID := update_of_ne (Ne.symm hid) _ _
    unfold processSpork
    split_ifs <;> simp_all

/-- Of the valid messages the one that was signed last is active, and of several the first. -/
theorem mapSporksActive_eq_argmax : (initial.processSporks env messages).mapSporksActive nSporkID =
    (validSporks env messages nSporkID).argmax fun spork => spork.nTimeSigned.toInt := by
  induction messages using reverseRecOn with
  | nil => rfl
  | append_singleton messages message ih =>
    rw [processSporks, foldl_concat, ← processSporks, processSpork_active, ih, validSporks,
      validSporks, filter_append, map_append, filter_singleton]
    split_ifs with hvalid
    · rw [hvalid, cond_true, map_singleton, argmax_concat]
      cases (map Prod.snd _).argmax fun spork : CSporkMessage => spork.nTimeSigned.toInt with
      | none => rfl
      | some active => exact apply_ite some _ _ _
    · simp [hvalid]

end

section
def hexText : ℕ → ℕ → List Char
  | 0, _ => []
  | width + 1, n => hexText width (n / 16) ++ [Nat.digitChar (n % 16)]

def uint256ToString (hash : UInt256) : List Char := hexText 64 hash.toNat

def COutPoint.toStringShort (o : COutPoint) : List Char :=
  uint256ToString o.hash ++ '-' :: decimalDigits o.n.toNat

end
end ImageCoin
