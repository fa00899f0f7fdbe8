import SystemProgramming.Malloc.Conservation
import SystemProgramming.ParMake.Starvation
import SystemProgramming.Networking.GetStream
import SystemProgramming.Networking.Resume
import SystemProgramming.Networking.Index
import SystemProgramming.Mmu.Translation
import SystemProgramming.Filesystem.Create
import SystemProgramming.CriticalConcurrency.Queue
import SystemProgramming.CriticalConcurrency.Semamore
import SystemProgramming.CriticalConcurrency.Barrier
import SystemProgramming.SavvyScheduler.Fairness
import SystemProgramming.SavvyScheduler.Statistics
import SystemProgramming.MapReduce.Pipeline
import SystemProgramming.Vector.Calls
import SystemProgramming.Chatroom.Delivery
import SystemProgramming.TextEditor.Save
import SystemProgramming.Networking.ClientGet
import SystemProgramming.Networking.Accept
import SystemProgramming.Networking.Ranges
import SystemProgramming.TextEditor.Search
import SystemProgramming.Malloc.Sizes
import SystemProgramming.MiniValgrind.Accounting
import SystemProgramming.MadMadAccessPatterns.Agreement
import SystemProgramming.PasswordCracker.Completeness
import SystemProgramming.PerilousPointers.ClearBits
import SystemProgramming.TeachingThreads.ParReduce
import SystemProgramming.Vector.SString
import SystemProgramming.ExtremeEdgeCases.CamelCaser
import SystemProgramming.TextEditor.Delete
import SystemProgramming.Shell.History
import SystemProgramming.ParMake.Parsed
import SystemProgramming.KnowYourTools.ReadWrap
import SystemProgramming.Vector.Growth
import SystemProgramming.Chatroom.Errors
import SystemProgramming.KnowYourTools.ReadWrap
import SystemProgramming.Vector.Growth
import SystemProgramming.MapReduce.Mappers
import SystemProgramming.MapReduce.Processes
import SystemProgramming.MapReduce.Descriptors
import SystemProgramming.MapReduce.Streams
import SystemProgramming.MapReduce.Completion
import SystemProgramming.PasswordCracker.Cracker1
import SystemProgramming.PasswordCracker.Pool
import SystemProgramming.PasswordCracker.PoolCompletion
import SystemProgramming.Filesystem.Files
import SystemProgramming.CriticalConcurrency.Rendezvous
import SystemProgramming.ParMake.Rebuild
import SystemProgramming.Networking.Session
import SystemProgramming.UtilitiesUnleashed.Env
