import SXP.Lib.SigmaProtocol
import SXP.Sigma.Revealer
import SXP.Sigma.Arrival
import SXP.Sigma.Trent
import SXP.Sigma.DecryptionProof
import SXP.Sigma.Statuses
import SXP.Sigma.Rounds
import SXP.Sigma.Completion
import SXP.Sigma.Promise
import SXP.Sigma.Forgery
import SXP.Sigma.Opening
import SXP.Lib.ListIterator
import SXP.Sigma.Candidates
import SXP.Sigma.ChooseTrent
import SXP.Sigma.Agreement
import SXP.Sigma.Intersection
import SXP.Sigma.Restart
import SXP.Sigma.FirstRound
import SXP.Sigma.StepChange
import SXP.Sigma.Recognition
import SXP.Sigma.SignedData
import SXP.Sigma.StoredPromise
import SXP.Sigma.FailedRequest
import SXP.Lib.Shelves
import SXP.Sigma.Ledger
import SXP.Sigma.Permanence
import SXP.Sigma.Resending
import SXP.Lib.Date
import SXP.Lib.ElGamal
import SXP.Crypt.CryptoParser
import SXP.Crypt.Signatures
import SXP.Crypt.Blocks
import SXP.Crypt.SignedFields
import SXP.Crypt.Transport
import SXP.Model.SyncManager
import SXP.Model.UserSyncManager
import SXP.Controller.NetworkManagers
import SXP.Controller.ItemSigning
import SXP.Controller.Passwords
import SXP.BlockChain.Finality
import SXP.BlockChain.PartyOrder
import SXP.BlockChain.Understanding
import SXP.BlockChain.PrivateKeys
import SXP.Controller.Contracts
import SXP.Controller.Copies
import SXP.Sigma.Continuing
import SXP.Controller.Cancellation
import SXP.Controller.Messages
import SXP.Crypt.PrimeKey
import SXP.Network.JxtaService
import SXP.Sigma.Reentrance
import SXP.Lib.Numeral
import SXP.Sigma.Answers
import SXP.Sigma.MalformedMessages
import SXP.BlockChain.SharedSignatures
import SXP.BlockChain.Receipts
import SXP.Network.UsersSender
import SXP.Sigma.ResponseEquality
import SXP.Sigma.Knowledge
import SXP.Controller.Sessions
import SXP.Sigma.ChoiceCompletion
import SXP.Sigma.Establishment
import SXP.Sigma.Resolution
import SXP.Sigma.Court
import SXP.Sigma.Judgement
