import IneryContracts.GuardedStep
import IneryContracts.KeyedTable
import IneryContracts.LedgerVector
import IneryContracts.CappedLedger
import IneryContracts.LabelledRun
import IneryContracts.LazyAccrual
import IneryContracts.TickedGrowth
import IneryContracts.LotMarket
import IneryContracts.MachineInt
import IneryContracts.NearestDouble
import IneryContracts.RankedLinks
import IneryContracts.SortedScan
import IneryContracts.HostInterface
import IneryContracts.AssetArithmetic
import IneryContracts.TokenContract
import IneryContracts.TokenEffects
import IneryContracts.TokenConservation
import IneryContracts.TokenRuns
import IneryContracts.SystemTables
import IneryContracts.VotingContract
import IneryContracts.MemoryMarket
import IneryContracts.StakeContract
import IneryContracts.SystemContract
import IneryContracts.ChainActions
import IneryContracts.VotingFrame
import IneryContracts.StakeEffects
import IneryContracts.MarketEffects
import IneryContracts.ResourceEffects
import IneryContracts.TokenFlow
import IneryContracts.ChainMoves
import IneryContracts.MemoryConservation
import IneryContracts.TokenIsolation
import IneryContracts.MoveSigners
import IneryContracts.SaleChecks
import IneryContracts.StakeLedger
import IneryContracts.MarketBacking
import IneryContracts.StakeSolvency
import IneryContracts.CoreToken
import IneryContracts.WealthFrame
import IneryContracts.ProducerCollateral
import IneryContracts.ReservedMemory
import IneryContracts.SupplyGrowth
import IneryContracts.MultisigContract
import IneryContracts.MultisigSafety
import IneryContracts.MultisigPairing
import IneryContracts.VoteBallots
import IneryContracts.VotePropagation
import IneryContracts.VoteDeltas
import IneryContracts.VoteCasting
import IneryContracts.Polls
import IneryContracts.HostFrames
import IneryContracts.ResourceQuotas
import IneryContracts.VoteRoster
import IneryContracts.ProducerStanding
import IneryContracts.ProducerActivity
import IneryContracts.ElectedProducers
import IneryContracts.ProposedSchedules
import IneryContracts.PropagateCalls
import IneryContracts.StakeActivation
import IneryContracts.VotePay
import IneryContracts.VoteShares
import IneryContracts.ShareAccounting
import IneryContracts.ProxyTermination
import IneryContracts.VoteOwnership
import IneryContracts.VoteLocking
import IneryContracts.StakeBooking
import IneryContracts.StakeReturns
import IneryContracts.MemorySales
import IneryContracts.MemoryPurchases
import IneryContracts.TopOfVote
import IneryContracts.VoteTally
import IneryContracts.CountedCalls
import IneryContracts.VoteAgreement
import IneryContracts.RefundMoves
import IneryContracts.RefundLocks
import IneryContracts.RefundSchedule
import IneryContracts.MultisigWithdrawal
import IneryContracts.AccountNames
import IneryContracts.TimeSpans
import IneryContracts.SharedPot
import IneryContracts.ActionFrames
import IneryContracts.ResourceMoves
import IneryContracts.PayEffects
import IneryContracts.BlockPay
import IneryContracts.InflationFill
import IneryContracts.BlockPayRange
import IneryContracts.InflationIssued
import IneryContracts.FairBlockPay
import IneryContracts.TradeBooks
import IneryContracts.PurchaseBySize
import IneryContracts.BuyAndSell
import IneryContracts.MissingRows
import IneryContracts.ByteCodec
import IneryContracts.ProducerPacking
import IneryContracts.ReplayedRun
import IneryContracts.BallotHistory
import IneryContracts.BlockTally
import IneryContracts.ClaimPacing
import IneryContracts.BeforeActivation
import IneryContracts.MessageOutbox
import IneryContracts.DeferredTransactions
import IneryContracts.WrapContract
import IneryContracts.MultisigDelivery
import IneryContracts.StakeWithdrawal
import IneryContracts.SupplyHistory
import IneryContracts.ProposalIsolation
import IneryContracts.TokenOutcomes
import IneryContracts.TokenRegister
import IneryContracts.GovernedSettings
import IneryContracts.VoteOutcomes
import IneryContracts.StakeExit
