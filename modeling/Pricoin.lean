import Pricoin.ByteStreams
import Pricoin.TaggedSets
import Pricoin.Runs
import Pricoin.Checks
import Pricoin.Codecs
import Pricoin.KeyImageFile
import Pricoin.KeyImageStore
import Pricoin.StoreDurability
import Pricoin.StoreRoundTrips
import Pricoin.TornAppends
import Pricoin.Transactions
import Pricoin.Coins
import Pricoin.TxChecks
import Pricoin.BlockConnection
import Pricoin.UndoCodec
import Pricoin.BlockDisconnection
import Pricoin.ConnectDisconnect
import Pricoin.BlockAcceptance
import Pricoin.ActiveChain
import Pricoin.SpendExclusivity
import Pricoin.Patches
import Pricoin.Rollforward
import Pricoin.VerifyDB
import Pricoin.SymbolicHashes
import Pricoin.SignatureHashes
import Pricoin.Mempool
import Pricoin.MempoolAccept
import Pricoin.MempoolAdmission
import Pricoin.NodeSteps
import Pricoin.MempoolImages
import Pricoin.CoinsKept
import Pricoin.MempoolRings
import Pricoin.Pedersen
import Pricoin.RangeProven
import Pricoin.ValueConservation
import Pricoin.StartUp
import Pricoin.Ecdsa
import Pricoin.JointStealth
import Pricoin.RecordCodecs
import Pricoin.DurableRecords
import Pricoin.ClsagNonces
import Pricoin.Musig2Nonces
import Pricoin.AdaptorSwaps
import Pricoin.SwapHistories
import Pricoin.SwapSafety
import Pricoin.TerminalSwaps
import Pricoin.SwapCeremony
import Pricoin.SwapStore
import Pricoin.ChainWatcher
import Pricoin.WatchedEvents
import Pricoin.SpendDetection
import Pricoin.SwapSignatures
import Pricoin.WalletBlobs
import Pricoin.StealthScan
import Pricoin.RecoveryIndex
import Pricoin.ConfidentialBalance
import Pricoin.OrderBook
import Pricoin.OrderEffects
import Pricoin.MatchedPairs
import Pricoin.OrderRows
import Pricoin.AddressedCaches
import Pricoin.SwapSessions
import Pricoin.WalletIsolation
import Pricoin.FailedDisconnections
import Pricoin.RingWalks
import Pricoin.CurveBytes
import Pricoin.RingSig
import Pricoin.AdaptorSig
import Pricoin.JointRingSig
import Pricoin.AdaptorJointRingSig
import Pricoin.SessionBinding
import Pricoin.BtcAdaptorSchnorr
import Pricoin.SumZero
import Pricoin.RefundMargins
import Pricoin.RefundRoles
import Pricoin.ClaimScan
import Pricoin.StealthKeys
import Pricoin.StealthPayments
import Pricoin.JointShares
import Pricoin.ExactCodecs
import Pricoin.TransactionCodec
import Pricoin.CoinCodec
import Pricoin.BalancingBlinds
import Pricoin.OfferPrices
import Pricoin.Base64
import Pricoin.OfferUris
import Pricoin.SubaddressStates
import Pricoin.SubaddressReuse
import Pricoin.SessionHistories
import Pricoin.SealedRecords
import Pricoin.CoinsCache
